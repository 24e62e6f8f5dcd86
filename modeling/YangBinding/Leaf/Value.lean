import YangBinding.Text.Quoted

/-!
# Leaf values

A leaf, an entry of a leaf-list and a key leaf each hold one value. A value carries its kind, so the
text `1`, the signed number 1 and the unsigned number 1 are three values; typed fields convert
between them.

## Main definitions

* `LeafValue`: the value of a leaf
* `LeafValue.text`: the canonical text
* `LeafValue.diagnostic`: the text that error messages show
-/

namespace YangBinding

/-- The value of a leaf. -/
inductive LeafValue where
  /-- The value of a leaf of type `empty`. -/
  | empty
  | bool (value : Bool)
  | int (value : Int64)
  | uint (value : UInt64)
  | string (value : String)
  | binary (bytes : List UInt8)
  deriving DecidableEq, Hashable, Repr

namespace LeafValue

/-- The canonical text: nothing for `empty`, decimal numbers, lower-case hexadecimal bytes. -/
def text : LeafValue → String
  | .empty => ""
  | .bool b => if b then "true" else "false"
  | .int n => toString n.toInt
  | .uint n => toString n.toNat
  | .string s => s
  | .binary bytes => String.ofList (bytes.flatMap Text.hexByte)

/-- Items between brackets, separated by a comma and a space. -/
def bracketed (items : List String) : String :=
  "[" ++ ", ".intercalate items ++ "]"

/-- The text that error messages show: the kind of the value and its content. -/
def diagnostic : LeafValue → String
  | .empty => "Empty"
  | .bool b => "Bool(" ++ (if b then "true" else "false") ++ ")"
  | .int n => "Int(" ++ toString n.toInt ++ ")"
  | .uint n => "Uint(" ++ toString n.toNat ++ ")"
  | .string s => "String(" ++ Text.quoted s ++ ")"
  | .binary bytes => "Binary(" ++ bracketed (bytes.map fun b => toString b.toNat) ++ ")"

/-! ## Order -/

/-- The place of a value's kind in the order of values. -/
def rank : LeafValue → Nat
  | .empty => 0
  | .bool _ => 1
  | .int _ => 2
  | .uint _ => 3
  | .string _ => 4
  | .binary _ => 5

/-- Values are ordered by kind, then by content; texts and bytes lexicographically. -/
instance : Ord LeafValue where
  compare
    | .bool a, .bool b => compare a b
    | .int a, .int b => compare a.toInt b.toInt
    | .uint a, .uint b => compare a.toNat b.toNat
    | .string a, .string b => compare a b
    | .binary a, .binary b => compare (a.map UInt8.toNat) (b.map UInt8.toNat)
    | a, b => compare a.rank b.rank

/-- The values in ascending order. -/
def sort (values : List LeafValue) : List LeafValue :=
  values.mergeSort fun a b => (compare a b).isLE

end LeafValue

end YangBinding
