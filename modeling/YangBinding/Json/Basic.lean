/-!
# JSON values

The value that a JSON text denotes. Arrays and objects keep the order of the text, and an object
may hold a key more than once: whether that is an error is up to the reader of a record. Integers
of 64 bits, signed or unsigned, are numbers; every other numeral is kept as its literal, because no
record of this library accepts one. A string literal with an unpaired surrogate denotes no text; such
a literal, and an object that has one for a key, is `broken`. Nothing can be read from it, so that it
may stand only where it is ignored.

Main statement: `Json.beq_iff_eq`, the executable equality is equality.
-/

namespace YangBinding

/-- A JSON value. -/
inductive Json where
  | null
  | bool (value : Bool)
  /-- A numeral for an integer from -2^63 to 2^64 - 1, other than `-0`. -/
  | integer (value : Int)
  /-- Any other numeral. -/
  | real (literal : String)
  | string (value : String)
  /-- A string literal that denotes no text, or an object with such a key. -/
  | broken
  | array (items : List Json)
  | object (members : List (String × Json))
  deriving Repr, Inhabited

namespace Json

mutual

/-- Equality of values, member order included. -/
protected def beq : Json → Json → Bool
  | .null, .null => true
  | .bool a, .bool b => a == b
  | .integer a, .integer b => a == b
  | .real a, .real b => a == b
  | .string a, .string b => a == b
  | .broken, .broken => true
  | .array as, .array bs => beqItems as bs
  | .object as, .object bs => beqMembers as bs
  | _, _ => false

/-- Equality of the items of two arrays. -/
def beqItems : List Json → List Json → Bool
  | [], [] => true
  | a :: as, b :: bs => a.beq b && beqItems as bs
  | _, _ => false

/-- Equality of the members of two objects. -/
def beqMembers : List (String × Json) → List (String × Json) → Bool
  | [], [] => true
  | (k, a) :: as, (l, b) :: bs => k == l && a.beq b && beqMembers as bs
  | _, _ => false

end

instance : BEq Json where
  beq := Json.beq

mutual

/-- The executable equality is equality. -/
theorem beq_iff_eq : ∀ {a b : Json}, a.beq b = true ↔ a = b
  | .null, b | .broken, b | .bool _, b | .integer _, b | .real _, b | .string _, b => by
    cases b <;> simp [Json.beq]
  | .array as, b => by cases b <;> simp [Json.beq, beqItems_iff_eq]
  | .object as, b => by cases b <;> simp [Json.beq, beqMembers_iff_eq]

theorem beqItems_iff_eq : ∀ {u v : List Json}, beqItems u v = true ↔ u = v
  | [], bs => by cases bs <;> simp [beqItems]
  | a :: as, bs => by
    cases bs <;> simp [beqItems, beq_iff_eq (a := a), beqItems_iff_eq (u := as)]

theorem beqMembers_iff_eq :
    ∀ {u v : List (String × Json)}, beqMembers u v = true ↔ u = v
  | [], bs => by cases bs <;> simp [beqMembers]
  | (k, a) :: as, bs => by
    cases bs <;>
      simp [beqMembers, beq_iff_eq (a := a), beqMembers_iff_eq (u := as), Prod.ext_iff]

end

instance : LawfulBEq Json where
  eq_of_beq h := beq_iff_eq.1 h
  rfl := beq_iff_eq.2 rfl

instance : DecidableEq Json := fun a b => decidable_of_iff (a.beq b = true) beq_iff_eq

/-- The member of an object that has the given key, the first one if there are several. -/
def member? (key : String) : Json → Option Json
  | .object members => (members.find? fun m => m.1 == key).map Prod.snd
  | _ => none

end Json

end YangBinding
