/-
  ReversePolish.Table — names bound to values, one value to a name.

  `insert` takes an earlier binding of the name away, so a later one replaces it. The
  lemmas say what a look-up finds after each operation.
-/

namespace ReversePolish

structure Table (α : Type) where
  entries : List (String × α) := []

namespace Table

variable {α : Type}

def get? (t : Table α) (name : String) : Option α := t.entries.lookup name

def contains (t : Table α) (name : String) : Bool := (t.get? name).isSome

def erase (t : Table α) (name : String) : Table α :=
  { entries := t.entries.filter fun e => e.1 != name }

def insert (t : Table α) (name : String) (value : α) : Table α :=
  { entries := (name, value) :: (t.erase name).entries }

def size (t : Table α) : Nat := t.entries.length

/-- The table of some bindings; a later one of a name replaces an earlier one. -/
def ofList (bindings : List (String × α)) : Table α :=
  bindings.foldl (fun t e => t.insert e.1 e.2) {}

@[simp] theorem get?_empty (name : String) : ({} : Table α).get? name = none := rfl

theorem get?_erase (t : Table α) (name other : String) :
    (t.erase name).get? other = if other = name then none else t.get? other := by
  obtain ⟨entries⟩ := t
  simp only [get?, erase]
  induction entries with
  | nil => simp
  | cons e rest ih =>
    obtain ⟨key, value⟩ := e
    by_cases hk : key = name
    · subst hk
      by_cases ho : other = key
      · simpa [ho] using ih
      · have : (other == key) = false := by simpa using ho
        simpa [ho, List.lookup_cons, this] using ih
    · by_cases ho : other = key
      · subst ho
        simp [hk]
      · have : (other == key) = false := by simpa using ho
        simpa [hk, List.lookup_cons, this] using ih

theorem get?_insert (t : Table α) (name other : String) (value : α) :
    (t.insert name value).get? other = if other = name then some value else t.get? other := by
  have h := get?_erase t name other
  by_cases ho : other = name
  · simp [insert, get?, ho]
  · have : (other == name) = false := by simpa using ho
    simp only [ho, if_false] at h ⊢
    simpa [insert, get?, List.lookup_cons, this] using h

end Table

end ReversePolish
