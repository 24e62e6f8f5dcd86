import YangBinding.Json.Record
import YangBinding.Leaf.Scalar
import YangBinding.Schema.Id

/-!
# Leaf values and identifiers in JSON

A leaf value is written as its type and its value; a value of type `empty` has no second member. An
identifier without a namespace leaves that member out.
-/

namespace YangBinding.Wire

open Json

/-! ## Leaf values -/

/-- The member that names the type of a leaf value. -/
def typeMember (type : String) : String × Json := ("type", .string type)

/-- A leaf value as JSON. -/
def leafValue : LeafValue → Json
  | .empty => .object [typeMember "empty"]
  | .bool b => .object [typeMember "bool", ("value", .bool b)]
  | .int n => .object [typeMember "int", ("value", .integer n.toInt)]
  | .uint n => .object [typeMember "uint", ("value", .integer n.toNat)]
  | .string s => .object [typeMember "string", ("value", .string s)]
  | .binary bytes =>
    .object [typeMember "binary",
      ("value", .array (bytes.map fun b => .integer b.toNat))]

/-- A signed number of 64 bits. -/
def readInt : Json → Option Int64
  | .integer n => if Scalar.FitsSigned .w64 n then some (Int64.ofInt n) else none
  | _ => none

/-- An unsigned number of 64 bits. -/
def readUInt : Json → Option UInt64
  | .integer n => if Scalar.FitsUnsigned .w64 n then some (UInt64.ofInt n) else none
  | _ => none

/-- A byte. -/
def readByte : Json → Option UInt8
  | .integer n => if Scalar.FitsUnsigned .w8 n then some (UInt8.ofInt n) else none
  | _ => none

/-- The content of a leaf value of a named type. -/
def readContent (depth : Nat) (type : String) (content : Option Json) : Option LeafValue :=
  match type, content with
  | "empty", none | "empty", some .null => some .empty
  | "bool", some j => (bool? j).map .bool
  | "int", some j => (readInt j).map .int
  | "uint", some j => (readUInt j).map .uint
  | "string", some j => (string? j).map .string
  | "binary", some j => (readList (fun _ => readByte) depth j).map .binary
  | _, _ => none

/-- A leaf value: an object, or an array of exactly the type, as a string, and the value. -/
def readLeafValue : Reader LeafValue
  | 0, _ => none
  | depth + 1, .object members => do
    let type ← readName depth (← ← uniqueMember? members "type")
    readContent depth type (← uniqueMember? members "value")
  | depth + 1, .array [type, content] => do
    readContent depth (← string? type) (some content)
  | _ + 1, _ => none

/-! ## Identifiers -/

/-- A member that is left out when there is nothing to say. -/
def optionalMember (key : String) (value : Option String) : List (String × Json) :=
  match value with
  | some s => [(key, .string s)]
  | none => []

/-- An identifier as JSON. -/
def schemaId (id : Schema.Id) : Json :=
  .object (("name", .string id.name) :: optionalMember "namespace" id.ns)

/-- An identifier. -/
def readSchemaId : Reader Schema.Id
  | 0, _ => none
  | _ + 1, j => do
    let [name, ns] ← fields? ["name", "namespace"] j | none
    return { name := ← required string? name, ns := ← optional string? ns }

end YangBinding.Wire
