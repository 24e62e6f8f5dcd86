/-!
# TOML values

The values of a TOML document. A table keeps its entries in the order in which its keys were first
set; no key occurs twice. Dates and times are kept as their normal texts, since nothing in this
library calculates with them.
-/

namespace YangBinding.Toml

/-- A TOML value. -/
inductive Value where
  | string (text : String)
  | integer (value : Int)
  | real (value : Float)
  | boolean (value : Bool)
  /-- A date, a time of day, or both. -/
  | moment (text : String)
  | array (items : List Value)
  | table (entries : List (String × Value))
  deriving Repr, Inhabited

/-- The entries of a table, each key once. -/
abbrev Table := List (String × Value)

namespace Table

/-- Changes the value of a key in its place; a new key goes to the end. -/
def alter {α : Type} (key : String) (change : Option α → α) :
    List (String × α) → List (String × α)
  | [] => [(key, change none)]
  | (k, a) :: rest => if k = key then (k, change (some a)) :: rest else (k, a) :: alter key change rest

/-- The value of the key becomes the changed one. -/
theorem lookup_alter {α : Type} (key : String) (change : Option α → α)
    (entries : List (String × α)) :
    (alter key change entries).lookup key = some (change (entries.lookup key)) := by
  induction entries with
  | nil => simp [alter]
  | cons entry rest ih =>
    obtain ⟨k, a⟩ := entry
    by_cases h : k = key
    · subst h
      simp [alter]
    · have h' : (key == k) = false := by simpa using fun e => h e.symm
      simp [alter, h, List.lookup_cons, h', ih]

/-- The values of other keys stay. -/
theorem lookup_alter_of_ne {α : Type} {key other : String} (change : Option α → α)
    (entries : List (String × α)) (h : other ≠ key) :
    (alter key change entries).lookup other = entries.lookup other := by
  have h' : (other == key) = false := by simpa using h
  induction entries with
  | nil => simp [alter, List.lookup_cons, h']
  | cons entry rest ih =>
    obtain ⟨k, a⟩ := entry
    by_cases hk : k = key
    · subst hk
      simp [alter, List.lookup_cons, h']
    · cases ho : other == k <;> simp [alter, hk, List.lookup_cons, ho, ih]

end Table

end YangBinding.Toml
