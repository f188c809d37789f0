/-
  ReversePolish.Proofs.Pieces — the tokens of a text, said without cutting it.

  A text is some tokens spaced out if it is these tokens in order, none of them empty or
  with a space in it, with at least one space between any two and as many as one likes
  around them (`Spaced`). Cutting a text at its spaces and dropping the empty pieces gives
  tokens of which it is made, since the pieces joined by single spaces are the text again
  (`spaced_pieces`), and tokens that were spaced out are found again by cutting
  (`nonempties_of_spaced`). So a text is one list of tokens spaced out and no other
  (`tokenize_eq_iff`), and what is cut from a text that is made of others is read off how
  these are spaced.
-/

import ReversePolish.Token

namespace ReversePolish

structure IsToken (token : String) : Prop where
  nonempty : token ≠ ""
  noSpace : ' ' ∉ token.toList

/-- The text is the tokens, in order, with spaces between any two and around them. -/
inductive Spaced : List String → List Char → Prop
  | nothing : Spaced [] []
  | space {tokens : List String} {text : List Char} : Spaced tokens text → Spaced tokens (' ' :: text)
  | last {token : String} : IsToken token → Spaced [token] token.toList
  | cons {token : String} {tokens : List String} {text : List Char} : IsToken token → Spaced tokens text →
      Spaced (token :: tokens) (token.toList ++ ' ' :: text)

namespace Spaced

variable {tokens others : List String} {text rest : List Char}

theorem isToken (h : Spaced tokens text) : ∀ token ∈ tokens, IsToken token := by
  induction h with
  | nothing =>
    intro token hm
    cases hm
  | space _ ih => exact ih
  | last ht =>
    intro token hm
    rw [List.mem_singleton.mp hm]
    exact ht
  | cons ht _ ih =>
    intro token hm
    rcases List.mem_cons.mp hm with rfl | hm
    · exact ht
    · exact ih token hm

theorem append (h : Spaced tokens text) (h' : Spaced others rest) :
    Spaced (tokens ++ others) (text ++ ' ' :: rest) := by
  induction h with
  | nothing => exact .space h'
  | space _ ih => exact .space ih
  | last ht => exact .cons ht h'
  | cons ht _ ih =>
    rw [List.append_assoc]
    exact .cons ht ih

theorem intercalate (h : ∀ token ∈ tokens, IsToken token) : Spaced tokens (" ".intercalate tokens).toList := by
  induction tokens with
  | nil => exact .nothing
  | cons token rest ih =>
    have ht := h token List.mem_cons_self
    cases rest with
    | nil =>
      rw [String.intercalate_singleton]
      exact .last ht
    | cons next rest =>
      have hrest := ih fun other hm => h other (List.mem_cons_of_mem _ hm)
      rw [String.intercalate_cons_cons, String.toList_append, String.toList_append, List.append_assoc]
      exact .cons ht hrest

end Spaced

/-! ## Cutting -/

theorem no_space_of_mem_splitOn {text piece : List Char} (h : piece ∈ text.splitOn ' ') : ' ' ∉ piece := by
  induction text generalizing piece with
  | nil =>
    rw [List.splitOn_nil, List.mem_singleton] at h
    rw [h]
    exact List.not_mem_nil
  | cons c rest ih =>
    rw [List.splitOn_cons_eq_if_modifyHead] at h
    split at h
    · rcases List.mem_cons.mp h with rfl | h
      · exact List.not_mem_nil
      · exact ih h
    · rename_i hc
      obtain ⟨first, others, hsplit⟩ := List.exists_cons_of_ne_nil (List.splitOn_ne_nil ' ' rest)
      rw [hsplit] at h ih
      rcases List.mem_cons.mp h with rfl | h
      · intro hmem
        rcases List.mem_cons.mp hmem with rfl | hmem
        · exact hc (beq_self_eq_true _)
        · exact ih List.mem_cons_self hmem
      · exact ih (List.mem_cons_of_mem _ h)

def nonempties (pieces : List (List Char)) : List String := (pieces.filter (!·.isEmpty)).map String.ofList

theorem isToken_ofList {piece : List Char} (hne : piece ≠ []) (hs : ' ' ∉ piece) : IsToken (String.ofList piece) where
  nonempty := by
    intro h
    exact hne (by simpa using congrArg String.toList h)
  noSpace := by rwa [String.toList_ofList]

/-- Pieces without a space are spaced out in the text that joins them by spaces. -/
theorem spaced_pieces {pieces : List (List Char)} (h : ∀ piece ∈ pieces, ' ' ∉ piece) :
    Spaced (nonempties pieces) ([' '].intercalate pieces) := by
  induction pieces with
  | nil => exact .nothing
  | cons piece rest ih =>
    have hs := h piece List.mem_cons_self
    have hrest := ih fun other hm => h other (List.mem_cons_of_mem _ hm)
    cases piece with
    | nil =>
      cases rest with
      | nil => exact .nothing
      | cons next rest => exact .space hrest
    | cons c cs =>
      have ht := isToken_ofList (List.cons_ne_nil c cs) hs
      cases rest with
      | nil =>
        have hlast := Spaced.last ht
        rw [String.toList_ofList] at hlast
        simpa [nonempties] using hlast
      | cons next rest =>
        have hcons := Spaced.cons ht hrest
        rw [String.toList_ofList] at hcons
        simpa [nonempties] using hcons

theorem spaced_tokenize (text : String) : Spaced (tokenize text) text.toList := by
  have h := spaced_pieces fun _ => @no_space_of_mem_splitOn text.toList _
  rwa [List.intercalate_splitOn] at h

theorem nonempties_of_spaced {tokens : List String} {text : List Char} (h : Spaced tokens text) :
    nonempties (text.splitOn ' ') = tokens := by
  induction h with
  | nothing => rfl
  | space _ ih => exact ih
  | @last token ht =>
    have hne : token.toList ≠ [] := by simpa using ht.nonempty
    rw [List.splitOn_eq_singleton ht.noSpace]
    simp [nonempties, hne]
  | @cons token tokens text ht _ ih =>
    have hne : token.toList ≠ [] := by simpa using ht.nonempty
    rw [List.splitOn_append_cons_self_of_not_mem ht.noSpace, ← ih]
    simp [nonempties, hne]

/-- A text is its tokens spaced out, and no others. -/
theorem tokenize_eq_iff {text : String} {tokens : List String} :
    tokenize text = tokens ↔ Spaced tokens text.toList := by
  constructor
  · intro h
    rw [← h]
    exact spaced_tokenize text
  · exact nonempties_of_spaced

theorem isToken_of_mem_tokenize {text token : String} (h : token ∈ tokenize text) : IsToken token :=
  (spaced_tokenize text).isToken token h

/-- Tokens that are joined by spaces are cut apart again. -/
theorem tokenize_intercalate {tokens : List String} (h : ∀ token ∈ tokens, IsToken token) :
    tokenize (" ".intercalate tokens) = tokens :=
  tokenize_eq_iff.mpr (.intercalate h)

theorem tokenize_append (left right : String) :
    tokenize (left ++ " " ++ right) = tokenize left ++ tokenize right := by
  have h := (spaced_tokenize left).append (spaced_tokenize right)
  refine tokenize_eq_iff.mpr ?_
  simpa using h

theorem tokenize_token {token : String} (h : IsToken token) : tokenize token = [token] :=
  tokenize_eq_iff.mpr (.last h)

theorem Operator.isToken_symbol (o : Operator) : IsToken o.symbol := by
  cases o <;> exact ⟨by decide, by decide⟩

end ReversePolish
