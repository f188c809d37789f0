/-
  ReversePolish.Text.Terminal — a text without what would control a terminal.

  Control characters that are not blanks are left out, and so is every escape sequence.
  A sequence begins with ESC. After `[` it goes on to the first character from `@` on,
  after `]` to BEL, after `P`, `X`, `^` or `_` to the byte 0x9C wherever the UTF-8 of a
  character holds it, and otherwise through the characters before `0` to the one after
  them. A further ESC begins a new sequence, and CAN and SUB break off any.

  A blank within the first or the last kind of sequence is kept and interrupts it: the
  characters after it are kept too, up to the next control character, where the sequence
  goes on. A character beyond ASCII ends an interrupted sequence.

  An emphasized text stands between two control sequences of its own, so a sequence that
  is open at its end is broken off there.
-/

namespace ReversePolish.Text

def isBlank (c : Char) : Bool := c = '\t' || c = '\n' || c = '\x0c' || c = '\r'

def isVisible (c : Char) : Bool := isBlank c || (' ' ≤ c && c != '\x7f')

def isASCII (c : Char) : Bool := c ≤ '\x7f'

/-- Where in an escape sequence a character stands. -/
inductive Sequence where
  | outside
  /-- Next to ESC. -/
  | escape
  /-- Behind the characters before `0` that follow ESC. -/
  | escapeMiddle
  /-- In a control sequence, which `[` opens. -/
  | control
  /-- In a command to the system, which `]` opens. -/
  | command
  /-- In the head of a string for the device, which `P` opens. -/
  | device
  /-- Behind the first parameter in such a head. -/
  | deviceParameters
  /-- Behind the parameters in such a head. -/
  | deviceMiddle
  /-- In a string that the byte 0x9C ends. -/
  | string
  deriving DecidableEq, Repr

namespace Sequence

def isInterruptible : Sequence → Bool
  | escape | escapeMiddle | control => true
  | _ => false

/-- Whether the byte that ends strings is among the bytes of a character. -/
def endsString (c : Char) : Bool := (String.utf8EncodeChar c).contains 0x9C

def next (s : Sequence) (c : Char) : Sequence :=
  if c = '\x18' || c = '\x1a' then outside
  else if c = '\x1b' then escape
  else
    match s with
    | outside => outside
    | escape =>
      if c < ' ' || '~' < c then escape
      else if c < '0' then escapeMiddle
      else if c = '[' then control
      else if c = ']' then command
      else if c = 'P' then device
      else if c = 'X' || c = '^' || c = '_' then string
      else outside
    | escapeMiddle => if '0' ≤ c && c ≤ '~' then outside else escapeMiddle
    | control => if '@' ≤ c && c ≤ '~' then outside else control
    | command => if c = '\x07' then outside else command
    | device =>
      if c < ' ' || '~' < c then device
      else if c < '0' then deviceMiddle
      else if c < '@' then deviceParameters
      else string
    | deviceParameters =>
      if c < ' ' || '~' < c then deviceParameters
      else if c < '0' then deviceMiddle
      else if c < '<' then deviceParameters
      else string
    | deviceMiddle => if '0' ≤ c && c ≤ '~' then string else deviceMiddle
    | string => if endsString c then outside else string

/-- Whether a character is kept, and with those after it interrupts the sequence. -/
def keeps (s : Sequence) (c : Char) : Bool :=
  if s = outside then isVisible c else isBlank c && s.isInterruptible

end Sequence

/-- The characters that are kept, when the first one stands at `s`. -/
def keptFrom (s : Sequence) (interrupted : Bool) : List Char → List Char
  | [] => []
  | c :: rest =>
    if interrupted && isVisible c then
      c :: keptFrom (if isASCII c then s else .outside) true rest
    else if s.keeps c then c :: keptFrom (s.next c) true rest
    else keptFrom (s.next c) false rest

def withoutControl (s : String) : String :=
  String.ofList (keptFrom .outside false s.toList)

def emphasized (s : String) : String := "\x1b[1m" ++ s ++ "\x1b[0m"

end ReversePolish.Text
