import YangBinding.Json.Basic

/-!
# Reading records

How the library's records are read from JSON values. A record is an object with known keys, in any
order, other keys being ignored; or an array of its fields in the order of their declaration, where
fields at the end may be missing. A choice between named variants is a string, or an object whose
one member names the variant and carries its content.

A document may nest its arrays and objects 127 deep. What an ignored member holds does not count,
so the limit is not a property of the value but of the reading: every reader takes the number of
levels that may still be opened.

## Main definitions

* `Reader`: how to read a value when a number of levels may still be opened
* `fields?`: the fields of a record by position
* `variant?`: the name and the content of a variant
-/

namespace YangBinding.Json

/-- How deep the arrays and objects of a document may nest. -/
def nestingLimit : Nat := 127

/-- A reader of values; the number says how many levels of arrays and objects may still be opened. -/
abbrev Reader (α : Type) := Nat → Json → Option α

/-! ## Scalars -/

/-- A string. -/
def string? : Json → Option String
  | .string s => some s
  | _ => none

/-- A boolean. -/
def bool? : Json → Option Bool
  | .bool b => some b
  | _ => none

/-- An integer of 64 bits. -/
def integer? : Json → Option Int
  | .integer n => some n
  | _ => none

/-- The items of an array. -/
def items? : Json → Option (List Json)
  | .array items => some items
  | _ => none

/-- A string; reading it opens no level. -/
def readString : Reader String := fun _ j => string? j

/-- A boolean; reading it opens no level. -/
def readBool : Reader Bool := fun _ j => bool? j

/-- An array, each item read in the same way. -/
def readList {α : Type} (read : Reader α) : Reader (List α)
  | 0, _ => none
  | depth + 1, j => do (← items? j).mapM (read depth)

/-! ## Records -/

/-- The value of a key, none if the object lacks it. A key that occurs twice spoils the record. -/
def uniqueMember? (members : List (String × Json)) (key : String) : Option (Option Json) :=
  match members.filter fun m => m.1 == key with
  | [] => some none
  | [m] => some (some m.2)
  | _ => none

/-- The fields of a record in the order of the given keys, each none if missing. -/
def fields? (keys : List String) : Json → Option (List (Option Json))
  | .object members => keys.mapM (uniqueMember? members)
  | .array items =>
    if items.length ≤ keys.length then
      some (items.map some ++ List.replicate (keys.length - items.length) none)
    else none
  | _ => none

/-- A field that must be there. -/
def required {α : Type} (read : Json → Option α) (field : Option Json) : Option α :=
  field.bind read

/-- A field that may be missing or null. -/
def optional {α : Type} (read : Json → Option α) : Option Json → Option (Option α)
  | none | some .null => some none
  | some j => (read j).map some

/-- A field that may be missing, in which case it has a default. -/
def defaulted {α : Type} (default : α) (read : Json → Option α) : Option Json → Option α
  | none => some default
  | some j => read j

/-! ## Variants -/

/-- The name of a variant and its content: a string has none, an object holds it in its only
member. An object opens a level. -/
def variant? : Reader (String × Option Json)
  | _, .string name => some (name, none)
  | _ + 1, .object [(name, content)] => some (name, some content)
  | _, _ => none

/-- The name of a variant that carries nothing: its content is missing or null. -/
def readName : Reader String := fun depth j =>
  match variant? depth j with
  | some (name, none) | some (name, some .null) => some name
  | _ => none

end YangBinding.Json
