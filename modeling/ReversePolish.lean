import ReversePolish.Main
import ReversePolish.Session
import ReversePolish.Proofs.Folding
import ReversePolish.Proofs.Backends
import ReversePolish.Proofs.Acceptance
import ReversePolish.Proofs.Canonical
import ReversePolish.Proofs.Blocks
import ReversePolish.Proofs.Bounds
import ReversePolish.Proofs.Memory
import ReversePolish.Proofs.Regions
import ReversePolish.Proofs.CommandLine
import ReversePolish.Proofs.Simulation
import ReversePolish.Proofs.Composition
import ReversePolish.Proofs.Contraction
import ReversePolish.Proofs.Refusal
import ReversePolish.Proofs.Selection
import ReversePolish.Proofs.Outcome
import ReversePolish.Proofs.Sharing
import ReversePolish.Proofs.Questions
import ReversePolish.Proofs.Double.Notations
import ReversePolish.Proofs.Double.Brevity
import ReversePolish.Proofs.Naming
import ReversePolish.Proofs.Shape
import ReversePolish.Proofs.Parenthesized
import ReversePolish.Proofs.Trace
