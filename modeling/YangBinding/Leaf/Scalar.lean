import YangBinding.Leaf.Value
import YangBinding.Text.Numeral

/-!
# Types of leaves

A typed leaf stores a value in the one kind that belongs to its type: integers as signed or
unsigned numbers, and so on. Values of another kind are converted where that loses nothing; in
particular every type that has a canonical text accepts it, so that values from a textual format
can be stored without knowing the type.

## Main definitions

* `Scalar`: the type of a leaf
* `Scalar.store?`: the value that a leaf of the type stores for a given value
* `Scalar.default`: the value of a key leaf that has not been set
-/

namespace YangBinding

/-- The width of an integer type. -/
inductive Width where
  | w8
  | w16
  | w32
  | w64
  deriving DecidableEq, Repr

/-- The number of bits of a width. -/
def Width.bits : Width → Nat
  | .w8 => 8
  | .w16 => 16
  | .w32 => 32
  | .w64 => 64

/-- Half the number of values of a width, which are two to the power of its bits. -/
def Width.half : Width → Int
  | .w8 => 128
  | .w16 => 32768
  | .w32 => 2147483648
  | .w64 => 9223372036854775808

/-- The type of a leaf. -/
inductive Scalar where
  | signed (width : Width)
  | unsigned (width : Width)
  | bool
  | string
  | binary
  | empty
  deriving DecidableEq, Repr

namespace Scalar

/-- The name of a type in messages. -/
def name : Scalar → String
  | .signed w => "i" ++ toString w.bits
  | .unsigned w => "u" ++ toString w.bits
  | .bool => "bool"
  | .string => "string"
  | .binary => "binary"
  | .empty => "empty"

/-- Every type, integers first, each by growing width. -/
def all : List Scalar :=
  [.signed .w8, .signed .w16, .signed .w32, .signed .w64, .unsigned .w8, .unsigned .w16,
    .unsigned .w32, .unsigned .w64, .bool, .string, .binary, .empty]

/-! ## Conversion -/

/-- The integer that a value stands for. A text stands for the integer that it denotes between
blanks; whether it may be negative depends on the type. -/
def integerOf? (signed : Bool) : LeafValue → Option Int
  | .int n => some n.toInt
  | .uint n => some n.toNat
  | .string s => Text.integer? signed (Text.trim s.toList)
  | _ => none

/-- The integers of a signed type. -/
def FitsSigned (w : Width) (n : Int) : Prop :=
  -w.half ≤ n ∧ n < w.half

/-- The integers of an unsigned type. -/
def FitsUnsigned (w : Width) (n : Int) : Prop :=
  0 ≤ n ∧ n < 2 * w.half

instance (w : Width) (n : Int) : Decidable (FitsSigned w n) :=
  inferInstanceAs (Decidable (_ ∧ _))

instance (w : Width) (n : Int) : Decidable (FitsUnsigned w n) :=
  inferInstanceAs (Decidable (_ ∧ _))

/-- The value that a leaf of the type stores for a given value, none if it cannot hold it. -/
def store? : Scalar → LeafValue → Option LeafValue
  | .signed w, v =>
    (integerOf? true v).bind fun n =>
      if FitsSigned w n then some (.int (Int64.ofInt n)) else none
  | .unsigned w, v =>
    (integerOf? false v).bind fun n =>
      if FitsUnsigned w n then some (.uint (UInt64.ofInt n)) else none
  | .bool, .bool b => some (.bool b)
  | .bool, .string s =>
    if s = "true" then some (.bool true)
    else if s = "false" then some (.bool false)
    else none
  | .string, .string s => some (.string s)
  | .string, .bool b => some (.string (LeafValue.bool b).text)
  | .string, .int n => some (.string (LeafValue.int n).text)
  | .string, .uint n => some (.string (LeafValue.uint n).text)
  | .binary, .binary bytes => some (.binary bytes)
  | .empty, .empty => some .empty
  | .empty, .string s => if s = "" then some .empty else none
  | _, _ => none

/-- The value of a key leaf that has not been set. -/
def default : Scalar → LeafValue
  | .signed _ => .int 0
  | .unsigned _ => .uint 0
  | .bool => .bool false
  | .string => .string ""
  | .binary => .binary []
  | .empty => .empty

end Scalar

end YangBinding
