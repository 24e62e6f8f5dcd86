/-!
# Splitting text

Names, paths and key values are cut at a separating character. `split` keeps every piece, empty ones
included, so that joining the pieces again gives the text back; `cut?` cuts at the first separator
only.

Main statements: `intercalate_split`, joining undoes splitting, and `cut?_eq_some_iff`.
-/

namespace YangBinding.Text

/-- The pieces between the separators, one more than there are separators. -/
def split (sep : Char) : List Char → List (List Char)
  | [] => [[]]
  | c :: cs =>
    if c = sep then [] :: split sep cs
    else match split sep cs with
      | piece :: pieces => (c :: piece) :: pieces
      | [] => [[c]]

/-- The pieces of a string between the separators. -/
def pieces (sep : Char) (s : String) : List String :=
  (split sep s.toList).map String.ofList

/-- What stands before the first separator, and what stands after it. -/
def cut? (sep : Char) : List Char → Option (List Char × List Char)
  | [] => none
  | c :: cs => if c = sep then some ([], cs) else (cut? sep cs).map fun p => (c :: p.1, p.2)

/-- A string cut at its first separator. -/
def halves? (sep : Char) (s : String) : Option (String × String) :=
  (cut? sep s.toList).map fun p => (String.ofList p.1, String.ofList p.2)

theorem split_ne_nil (sep : Char) (cs : List Char) : split sep cs ≠ [] := by
  cases cs with
  | nil => simp [split]
  | cons c cs => unfold split; split <;> (try split) <;> simp

/-- Joining the pieces with the separator gives the text back. -/
theorem intercalate_split (sep : Char) (cs : List Char) :
    List.intercalate [sep] (split sep cs) = cs := by
  induction cs with
  | nil => rfl
  | cons c cs ih =>
    unfold split
    obtain ⟨piece, rest, h⟩ := List.exists_cons_of_ne_nil (split_ne_nil sep cs)
    rw [h] at ih ⊢
    by_cases hc : c = sep
    · simp [hc, ← ih, List.intercalate]
    · cases rest <;> simp_all [List.intercalate]

/-- A cut is made exactly at the first separator. -/
theorem cut?_eq_some_iff {sep : Char} {cs before after : List Char} :
    cut? sep cs = some (before, after) ↔ cs = before ++ sep :: after ∧ sep ∉ before := by
  induction cs generalizing before after with
  | nil => simp [cut?]
  | cons c cs ih =>
    by_cases hc : c = sep
    · subst hc
      cases before <;> simp_all [cut?, eq_comm]
    · cases before with
      | nil => simp [cut?, hc]
      | cons b before =>
        have head : sep ∉ b :: before ↔ sep ≠ b ∧ sep ∉ before := by simp
        simp only [cut?, hc, if_false, Option.map_eq_some_iff, Prod.exists, ih, head]
        constructor
        · rintro ⟨x, y, ⟨rfl, hx⟩, h⟩
          simp only [Prod.mk.injEq, List.cons.injEq] at h
          obtain ⟨⟨rfl, rfl⟩, rfl⟩ := h
          exact ⟨rfl, Ne.symm hc, hx⟩
        · rintro ⟨h, -, hb⟩
          simp only [List.cons_append, List.cons.injEq] at h
          obtain ⟨rfl, rfl⟩ := h
          exact ⟨before, after, ⟨rfl, hb⟩, rfl⟩

end YangBinding.Text
