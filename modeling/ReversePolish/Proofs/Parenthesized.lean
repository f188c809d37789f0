/-
  ReversePolish.Proofs.Parenthesized — the parenthesized text tells which program it is of.

  The text is put together on a stack of texts. On a program no text is ever missing there
  (`parenthesized?_ofTerm`), and what comes out is the text of the term that the nodes of
  the call tree are read back as.

  Names may hold anything but spaces and parentheses: a name may be `then`, or end in `>0`.
  Still the text can be read in one way only, and so can the text of a term in front of
  anything that starts with a delimiter (`readsApart`). A compound term starts with a
  parenthesis and a name does not, and a name ends where a delimiter stands. A conditional
  is told from an arithmetic operator over a name `if` by its condition, which ends in `>0`
  and so is no symbol (`arithmetic_ne_conditional`). So two programs with the same
  parenthesized text have the same instructions and the same names (`parenthesized_tells_program`).
-/

import ReversePolish.Proofs.Canonical
import ReversePolish.Proofs.Shape

namespace ReversePolish

variable {τ τ' ι ι' : Type}

/-! ## The stack of texts -/

def Term.parenthesized : Term String → String
  | leaf name => name
  | node o l r => Program.between o l.parenthesized r.parenthesized

namespace Program

def parenthesizeStep? (s : List String × List (Operand ι)) : Instruction → Option (List String × List (Operand ι))
  | .fetch =>
    match s.2 with
    | operand :: operands => some (operand.name :: s.1, operands)
    | [] => none
  | .apply o =>
    match s.1 with
    | rhs :: lhs :: texts => some (between o lhs rhs :: texts, s.2)
    | _ => none

/-- The parenthesized text, if nothing is missing while it is put together. -/
def parenthesized? (p : Program ι) : Option String :=
  (p.ops.toList.foldlM parenthesizeStep? ([], p.operands.toList)).bind fun s => s.1.head?

theorem parenthesizeStep_of_step? {s s' : List String × List (Operand ι)} {i : Instruction}
    (h : parenthesizeStep? s i = some s') : parenthesizeStep s i = s' := by
  obtain ⟨texts, operands⟩ := s
  cases i with
  | fetch =>
    cases operands with
    | nil => cases h
    | cons operand operands => exact Option.some.inj h
  | apply o =>
    match texts, h with
    | rhs :: lhs :: texts, h => exact Option.some.inj h

theorem foldl_of_foldlM {ops : List Instruction} {s s' : List String × List (Operand ι)}
    (h : ops.foldlM parenthesizeStep? s = some s') : ops.foldl parenthesizeStep s = s' := by
  induction ops generalizing s with
  | nil => exact Option.some.inj h
  | cons i ops ih =>
    rw [List.foldlM_cons] at h
    obtain ⟨s₁, hi, hrest⟩ := Option.bind_eq_some_iff.mp h
    rw [List.foldl_cons, parenthesizeStep_of_step? hi]
    exact ih hrest

/-- Where nothing is missing, no default is used. -/
theorem parenthesized_of_parenthesized? {p : Program ι} {text : String} (h : p.parenthesized? = some text) :
    p.parenthesized = text := by
  obtain ⟨⟨texts, operands⟩, hs, ht⟩ := Option.bind_eq_some_iff.mp h
  rw [parenthesized, foldl_of_foldlM hs, List.headD_eq_head?_getD, ht, Option.getD_some]

end Program

theorem Term.foldlM_instructions (t : Term (Operand ι)) (texts : List String) (after : List (Operand ι)) :
    t.instructions.foldlM Program.parenthesizeStep? (texts, t.leaves ++ after) =
      some ((t.map Operand.name).parenthesized :: texts, after) := by
  induction t generalizing texts after with
  | leaf operand => rfl
  | node o l r ihl ihr =>
    simp only [instructions, leaves, List.foldlM_append, List.append_assoc, ihl, ihr, Option.bind_eq_bind,
      Option.bind_some]
    rfl

theorem Program.parenthesized?_ofTerm (t : Term (Operand ι)) :
    (ofTerm t).parenthesized? = some (t.fold.map Operand.name).parenthesized := by
  have h := t.fold.foldlM_instructions [] []
  rw [List.append_nil] at h
  rw [parenthesized?, ofTerm, ofParts, h]
  rfl

/-! ## Words -/

def delimits (c : Char) : Bool := c == ' ' || c == '(' || c == ')'

def NoDelimiter (s : List Char) : Prop := ∀ c ∈ s, delimits c = false

instance : DecidablePred NoDelimiter := fun s => List.decidableBAll (fun c => delimits c = false) s

def Stops (s : List Char) : Prop := ∃ c rest, s = c :: rest ∧ delimits c = true

structure IsWord (name : String) : Prop where
  nonempty : name ≠ ""
  noDelimiter : NoDelimiter name.toList

theorem stops_cons {c : Char} (h : delimits c = true) (rest : List Char) : Stops (c :: rest) := ⟨c, rest, rfl, h⟩

theorem NoDelimiter.append {s s' : List Char} (h : NoDelimiter s) (h' : NoDelimiter s') : NoDelimiter (s ++ s') :=
  fun c hc => (List.mem_append.mp hc).elim (h c) (h' c)

theorem noDelimiter_nil : NoDelimiter [] := fun _ hc => absurd hc List.not_mem_nil

/-- What goes on after a word before a delimiter does not come from the word. -/
theorem eq_nil_of_stops {a w x y : List Char} (hw : NoDelimiter (a ++ w)) (hx : Stops x) (h : x = w ++ y) : w = [] := by
  obtain ⟨c, rest, rfl, hc⟩ := hx
  cases w with
  | nil => rfl
  | cons d w =>
    obtain ⟨rfl, -⟩ := List.cons.inj h
    rw [hw c (List.mem_append_right _ List.mem_cons_self)] at hc
    cases hc

/-- A word ends at the first delimiter. -/
theorem word_append_inj {a b x y : List Char} (ha : NoDelimiter a) (hb : NoDelimiter b) (hx : Stops x) (hy : Stops y)
    (h : a ++ x = b ++ y) : a = b ∧ x = y := by
  rcases List.append_eq_append_iff.mp h with ⟨w, rfl, hxy⟩ | ⟨w, rfl, hyx⟩
  · obtain rfl := eq_nil_of_stops hb hx hxy
    exact ⟨(List.append_nil a).symm, hxy⟩
  · obtain rfl := eq_nil_of_stops ha hy hyx
    exact ⟨List.append_nil b, hyx.symm⟩

theorem Operator.noDelimiter_symbol (o : Operator) : NoDelimiter o.symbol.toList := by
  cases o <;> decide

theorem IsWord.exists_cons {name : String} (h : IsWord name) :
    ∃ c rest, name.toList = c :: rest ∧ delimits c = false := by
  cases hc : name.toList with
  | nil => exact absurd (String.toList_eq_nil_iff.mp hc) h.nonempty
  | cons c rest => exact ⟨c, rest, rfl, h.noDelimiter c (by rw [hc]; exact List.mem_cons_self)⟩

/-! ## One way to read a text -/

namespace Term

def chars (t : Term String) : List Char := t.parenthesized.toList

theorem chars_cond (l r : Term String) :
    (node .cond l r).chars =
      '(' :: ("if".toList ++ (' ' :: (l.chars ++ (">0".toList ++
        (' ' :: ("then ".toList ++ (r.chars ++ [')']))))))) := by
  simp [chars, parenthesized, Program.between]

theorem chars_arithmetic {o : Operator} (h : o ≠ .cond) (l r : Term String) :
    (node o l r).chars = '(' :: (l.chars ++ (' ' :: (o.symbol.toList ++ (' ' :: (r.chars ++ [')']))))) := by
  cases o <;> first | exact absurd rfl h | simp [chars, parenthesized, Program.between]

theorem exists_chars_node (o : Operator) (l r : Term String) : ∃ rest, (node o l r).chars = '(' :: rest := by
  by_cases h : o = .cond
  · rw [h, chars_cond]
    exact ⟨_, rfl⟩
  · rw [chars_arithmetic h]
    exact ⟨_, rfl⟩

/-- No text starts with a word and with a compound term. -/
theorem cons_ne_node {c : Char} (hc : delimits c = false) (x : List Char) (o : Operator) (l r : Term String)
    (y : List Char) : c :: x ≠ (node o l r).chars ++ y := by
  intro h
  obtain ⟨rest, hn⟩ := exists_chars_node o l r
  rw [hn] at h
  rw [(List.cons.inj h).1] at hc
  exact absurd hc (by decide)

theorem leaf_ne_node {name : String} (hn : IsWord name) (x : List Char) (o : Operator) (l r : Term String)
    (y : List Char) : (leaf name).chars ++ x ≠ (node o l r).chars ++ y := by
  obtain ⟨c, rest, hc, hd⟩ := hn.exists_cons
  rw [show (leaf name).chars = c :: rest from hc, List.cons_append]
  exact cons_ne_node hd (rest ++ x) o l r y

def OverWords (t : Term String) : Prop := ∀ name ∈ t.leaves, IsWord name

section Words

variable {name : String} {o o' : Operator} {l r l' r' : Term String}

theorem OverWords.leaf (h : (leaf name).OverWords) : IsWord name := h name (List.mem_singleton_self _)

theorem OverWords.left (h : (node o l r).OverWords) : l.OverWords := fun name hn => h name (List.mem_append_left _ hn)

theorem OverWords.right (h : (node o l r).OverWords) : r.OverWords := fun name hn => h name (List.mem_append_right _ hn)

/-- An arithmetic operator is no conditional, whatever the names: after a name `if` there is a symbol and no
    condition. -/
theorem arithmetic_ne_conditional (ho : o ≠ .cond) (hl : l.OverWords) (hl' : l'.OverWords) (x y : List Char) :
    (node o l r).chars ++ x ≠ (node .cond l' r').chars ++ y := by
  intro h
  rw [chars_arithmetic ho, chars_cond] at h
  simp only [List.cons_append, List.append_assoc] at h
  have h := (List.cons.inj h).2
  have hspace : delimits ' ' = true := rfl
  cases l with
  | node o₁ l₁ r₁ => exact cons_ne_node (show delimits 'i' = false from rfl) _ o₁ l₁ r₁ _ h.symm
  | leaf name =>
    -- the name is `if`, and the symbol stands where the condition is
    have h := word_append_inj hl.leaf.noDelimiter (by decide) (stops_cons hspace _) (stops_cons hspace _) h
    have h := (List.cons.inj h.2).2
    cases l' with
    | node o₂ l₂ r₂ =>
      obtain ⟨c, rest, hc, hd⟩ : ∃ c rest, o.symbol.toList = c :: rest ∧ delimits c = false := by
        cases o <;> exact ⟨_, _, rfl, by decide⟩
      rw [hc, List.cons_append] at h
      exact cons_ne_node hd _ o₂ l₂ r₂ _ h
    | leaf name' =>
      have hw : NoDelimiter (name'.toList ++ ">0".toList) := hl'.leaf.noDelimiter.append (by decide)
      rw [← List.append_assoc] at h
      have hsymbol := (word_append_inj o.noDelimiter_symbol hw (stops_cons hspace _) (stops_cons hspace _) h).1
      have hmem : '>' ∈ o.symbol.toList := by rw [hsymbol]; exact List.mem_append_right _ (by decide)
      cases o <;> exact absurd hmem (by decide)

/-- Before a delimiter, or a word and then a delimiter, the text of the term is that of no other term. -/
def ReadsApart (t : Term String) : Prop :=
  ∀ {u : Term String} {s x y : List Char}, u.OverWords → NoDelimiter s → Stops x → Stops y →
    t.chars ++ (s ++ x) = u.chars ++ (s ++ y) → t = u ∧ x = y

theorem readsApart_leaf (hn : IsWord name) : (leaf name).ReadsApart := by
  intro u s x y hu hs hx hy h
  cases u with
  | leaf name' =>
    rw [← List.append_assoc, ← List.append_assoc] at h
    obtain ⟨hsame, hxy⟩ :=
      word_append_inj (hn.noDelimiter.append hs) (hu.leaf.noDelimiter.append hs) hx hy h
    exact ⟨congrArg leaf (String.toList_inj.mp (List.append_cancel_right hsame)), hxy⟩
  | node o' l' r' => exact absurd h (leaf_ne_node hn _ o' l' r' _)

theorem conditional_append_inj (hl : l.ReadsApart) (hr : r.ReadsApart) (hl' : l'.OverWords) (hr' : r'.OverWords)
    {x y : List Char} (h : (node .cond l r).chars ++ x = (node .cond l' r').chars ++ y) :
    l = l' ∧ r = r' ∧ x = y := by
  have hspace : delimits ' ' = true := rfl
  have hclose : delimits ')' = true := rfl
  rw [chars_cond, chars_cond] at h
  simp only [List.cons_append, List.append_assoc, List.cons.injEq, true_and, List.append_cancel_left_eq] at h
  obtain ⟨hll, hrest⟩ := hl hl' (by decide) (stops_cons hspace _) (stops_cons hspace _) h
  simp only [List.cons.injEq, true_and, List.append_cancel_left_eq] at hrest
  obtain ⟨hrr, hxy⟩ := hr hr' noDelimiter_nil (stops_cons hclose _) (stops_cons hclose _) hrest
  exact ⟨hll, hrr, (List.cons.inj hxy).2⟩

theorem arithmetic_append_inj (ho : o ≠ .cond) (ho' : o' ≠ .cond) (hl : l.ReadsApart) (hr : r.ReadsApart)
    (hl' : l'.OverWords) (hr' : r'.OverWords) {x y : List Char}
    (h : (node o l r).chars ++ x = (node o' l' r').chars ++ y) : o = o' ∧ l = l' ∧ r = r' ∧ x = y := by
  have hspace : delimits ' ' = true := rfl
  have hclose : delimits ')' = true := rfl
  rw [chars_arithmetic ho, chars_arithmetic ho'] at h
  simp only [List.cons_append, List.append_assoc, List.cons.injEq, true_and] at h
  obtain ⟨hll, hrest⟩ := hl hl' noDelimiter_nil (stops_cons hspace _) (stops_cons hspace _) h
  obtain ⟨hsymbol, hrest⟩ := word_append_inj o.noDelimiter_symbol o'.noDelimiter_symbol (stops_cons hspace _)
    (stops_cons hspace _) (List.cons.inj hrest).2
  obtain ⟨hrr, hxy⟩ := hr hr' noDelimiter_nil (stops_cons hclose _) (stops_cons hclose _) (List.cons.inj hrest).2
  refine ⟨Option.some.inj ?_, hll, hrr, (List.cons.inj hxy).2⟩
  rw [← Operator.ofSymbol?_symbol o, ← Operator.ofSymbol?_symbol o', String.toList_inj.mp hsymbol]

theorem readsApart_node (hw : l.OverWords) (hl : l.ReadsApart) (hr : r.ReadsApart) : (node o l r).ReadsApart := by
  intro u s x y hu hs hx hy h
  cases u with
  | leaf name => exact absurd h.symm (leaf_ne_node hu.leaf _ o l r _)
  | node o' l' r' =>
    by_cases ho : o = .cond
    · by_cases ho' : o' = .cond
      · subst ho
        subst ho'
        obtain ⟨rfl, rfl, hxy⟩ := conditional_append_inj hl hr hu.left hu.right h
        exact ⟨rfl, List.append_cancel_left hxy⟩
      · subst ho
        exact absurd h.symm (arithmetic_ne_conditional ho' hu.left hw _ _)
    · by_cases ho' : o' = .cond
      · subst ho'
        exact absurd h (arithmetic_ne_conditional ho hw hu.left _ _)
      · obtain ⟨rfl, rfl, rfl, hxy⟩ := arithmetic_append_inj ho ho' hl hr hu.left hu.right h
        exact ⟨rfl, List.append_cancel_left hxy⟩

end Words

theorem readsApart {t : Term String} (ht : t.OverWords) : t.ReadsApart := by
  induction t with
  | leaf name => exact readsApart_leaf ht.leaf
  | node o l r hl hr => exact readsApart_node ht.left (hl ht.left) (hr ht.right)

/-- Terms over words that have the same text are the same. -/
theorem parenthesized_inj {t u : Term String} (ht : t.OverWords) (hu : u.OverWords)
    (h : t.parenthesized = u.parenthesized) : t = u := by
  have hclosed : t.chars ++ ([] ++ [')']) = u.chars ++ ([] ++ [')']) := by rw [chars, chars, h]
  exact (readsApart ht hu noDelimiter_nil (stops_cons rfl []) (stops_cons rfl []) hclosed).1

end Term

/-! ## Programs with one text -/

namespace Term

theorem instructions_map {α β : Type} (f : α → β) (t : Term α) : (t.map f).instructions = t.instructions := by
  induction t with
  | leaf a => rfl
  | node o l r hl hr => simp only [map, instructions, hl, hr]

theorem name_mem_names {t : Term (Operand ι)} {operand : Operand ι} (h : operand ∈ t.leaves) :
    operand.name ∈ t.names := by
  induction t with
  | leaf a =>
    obtain rfl := List.mem_singleton.mp h
    exact List.mem_singleton_self _
  | node o l r ihl ihr =>
    refine List.mem_append_left _ ?_
    rcases List.mem_append.mp h with h | h
    · exact List.mem_append_left _ (ihl h)
    · exact List.mem_append_right _ (ihr h)

/-- The names of a folded term are tokens, those of its constants too. -/
theorem isToken_of_mem_fold {t : Term (Operand ι)} {text : String} (ht : t.names = tokenize text) {operand : Operand ι}
    (h : operand ∈ t.fold.leaves) : IsToken operand.name := by
  rcases mem_leaves_fold h with h | ⟨x, rfl⟩
  · exact @isToken_of_mem_tokenize text _ (ht ▸ name_mem_names h)
  · exact (rereads_plain (none : Option (Resolver Unit ι)) x).token

end Term

/-- No name of an operand holds a parenthesis. -/
def Program.NamesOpen (p : Program ι) : Prop :=
  ∀ operand ∈ p.operands, '(' ∉ operand.name.toList ∧ ')' ∉ operand.name.toList

theorem isWord_of_isToken {name : String} (h : IsToken name) (ho : '(' ∉ name.toList) (hc : ')' ∉ name.toList) :
    IsWord name := by
  refine ⟨h.nonempty, fun c hmem => ?_⟩
  have hspace : c ≠ ' ' := fun he => h.noSpace (he ▸ hmem)
  have hopen : c ≠ '(' := fun he => ho (he ▸ hmem)
  have hclose : c ≠ ')' := fun he => hc (he ▸ hmem)
  simp [delimits, hspace, hopen, hclose]

theorem Program.overWords_of_namesOpen {t : Term (Operand ι)} {text : String} (ht : t.names = tokenize text)
    (hn : (ofTerm t).NamesOpen) : (t.fold.map Operand.name).OverWords := by
  intro name hmem
  rw [Term.leaves_map] at hmem
  obtain ⟨operand, ho, rfl⟩ := List.mem_map.mp hmem
  obtain ⟨hopen, hclose⟩ := hn operand (List.mem_toArray.mpr ho)
  exact isWord_of_isToken (Term.isToken_of_mem_fold ht ho) hopen hclose

/-- The parenthesized text of a program is that of its call tree, and no default goes into it. Where no name has a
    parenthesis in it, it tells the instructions and the names, whatever the two programs are built from. -/
theorem parenthesized_tells_program {resolver : Option (Resolver τ ι)} {text : String} {lookups : τ} {p : Program ι}
    (hp : (Program.parse resolver text lookups).result = .ok p) :
    p.parenthesized? = some p.parenthesized ∧
      (∃ tree t, CallTree.ofProgram p = .ok tree ∧
        CallTree.termAt tree.nodes p.operands.toList tree.root = some t ∧
        p.parenthesized = (t.map Operand.name).parenthesized) ∧
      ∀ {resolver' : Option (Resolver τ' ι')} {text' : String} {lookups' : τ'} {q : Program ι'},
        (Program.parse resolver' text' lookups').result = .ok q → p.NamesOpen → q.NamesOpen →
        p.parenthesized = q.parenthesized →
        p.ops = q.ops ∧ p.operands.map Operand.name = q.operands.map Operand.name := by
  obtain ⟨t, -, -, ht, rfl⟩ := Program.parse_eq_ok_iff.mp hp
  have htext := Program.parenthesized?_ofTerm t
  have hdefault := Program.parenthesized_of_parenthesized? htext
  refine ⟨by rw [htext, hdefault], ⟨_, t.fold, CallTree.ofProgram_ofTerm t,
    CallTree.termAt_ofTerm (CallTree.ofProgram_ofTerm t), hdefault⟩, ?_⟩
  intro resolver' text' lookups' q hq hpn hqn hsame
  obtain ⟨u, -, -, hu, rfl⟩ := Program.parse_eq_ok_iff.mp hq
  rw [hdefault, Program.parenthesized_of_parenthesized? (Program.parenthesized?_ofTerm u)] at hsame
  have hterm := Term.parenthesized_inj (Program.overWords_of_namesOpen ht hpn)
    (Program.overWords_of_namesOpen hu hqn) hsame
  have hops : t.fold.instructions = u.fold.instructions := by
    rw [← Term.instructions_map Operand.name t.fold, hterm, Term.instructions_map]
  have hnames : t.fold.leaves.map Operand.name = u.fold.leaves.map Operand.name := by
    rw [← Term.leaves_map, hterm, Term.leaves_map]
  refine ⟨by rw [Program.ofTerm, Program.ofParts, hops]; rfl, ?_⟩
  simp only [Program.ofTerm, Program.ofParts, List.map_toArray, hnames]

theorem Program.namesOpen_of_names {p : Program ι} {names : List String}
    (h : p.operands.toList.map Operand.name = names)
    (hn : ∀ name ∈ names, '(' ∉ name.toList ∧ ')' ∉ name.toList) : p.NamesOpen := by
  intro operand ho
  refine hn operand.name ?_
  rw [← h]
  exact List.mem_map_of_mem (Array.mem_toList_iff.mpr ho)

/-- Two programs of one text, over names that look like the words of a conditional: one has its -1 from the expression,
    the other one from a folding. -/
theorem parenthesized_tells_program_folded :
    ∃ p q, (Program.parse (some Resolver.itself) "a>0 then if -1 -" ()).result = .ok p ∧
      (Program.parse (some (.ofFunction fun name => .ok (.dynamic name.length))) "a>0 then if 0 1 - -" ()).result =
        .ok q ∧
      p.parenthesized = "((if a>0>0 then then) - -1)" ∧ p.parenthesized = q.parenthesized ∧ p.ops = q.ops ∧
      p.operands.map Operand.name = q.operands.map Operand.name := by
  have hs : (Program.parse (some Resolver.itself) "a>0 then if -1 -" ()).result.toOption.map
      (fun p => (p.parenthesized, p.operands.toList.map Operand.name)) =
        some ("((if a>0>0 then then) - -1)", ["a>0", "then", "-1"]) := by
    decide +kernel
  have hs' : (Program.parse (some (.ofFunction fun name => .ok (.dynamic name.length))) "a>0 then if 0 1 - -"
      ()).result.toOption.map (fun p => (p.parenthesized, p.operands.toList.map Operand.name)) =
        some ("((if a>0>0 then then) - -1)", ["a>0", "then", "-1"]) := by
    decide +kernel
  have hopen : ∀ name ∈ ["a>0", "then", "-1"], '(' ∉ name.toList ∧ ')' ∉ name.toList := by decide
  cases hp : (Program.parse (some Resolver.itself) "a>0 then if -1 -" ()).result with
  | error e => rw [hp] at hs; cases hs
  | ok p =>
    cases hq : (Program.parse (some (.ofFunction fun name => .ok (.dynamic name.length))) "a>0 then if 0 1 - -"
        ()).result with
    | error e => rw [hq] at hs'; cases hs'
    | ok q =>
      rw [hp] at hs
      rw [hq] at hs'
      obtain ⟨htext, hnames⟩ := Prod.mk.inj (Option.some.inj hs)
      obtain ⟨htext', hnames'⟩ := Prod.mk.inj (Option.some.inj hs')
      have hsame : p.parenthesized = q.parenthesized := htext.trans htext'.symm
      have htells := (parenthesized_tells_program hp).2.2 hq (Program.namesOpen_of_names hnames hopen)
        (Program.namesOpen_of_names hnames' hopen) hsame
      exact ⟨p, q, rfl, rfl, htext, hsame, htells.1, htells.2⟩

end ReversePolish
