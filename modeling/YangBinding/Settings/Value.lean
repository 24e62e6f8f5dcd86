import YangBinding.Json.Basic
import YangBinding.Decimal.Stepwise
import YangBinding.Toml.Value

/-!
# Values of settings

Settings are written in several formats. What a file says is the same in all of them: scalars,
arrays and tables. A format that can say nothing on purpose has a value for that too.

## Main definitions

* `Value`, `Table`: what a file of settings says
* `Value.ofToml`, `Value.ofJson?`: what a TOML value, and a JSON value, says
-/

namespace YangBinding.Settings

/-- What a file says about a setting. -/
inductive Value where
  /-- Nothing, but on purpose. -/
  | absent
  | boolean (value : Bool)
  | integer (value : Int)
  | real (value : Float)
  | text (text : String)
  | array (items : List Value)
  | table (entries : List (String × Value))
  deriving Repr, Inhabited

/-- The entries of a table by name. -/
abbrev Table := List (String × Value)

namespace Value

/-- The entries of a table; any other value has none. -/
def entries : Value → Table
  | .table entries => entries
  | _ => []

/-- The items of an array; any other value has none. -/
def items : Value → List Value
  | .array items => items
  | _ => []

/-- The table that a value is. -/
def table? : Value → Option Table
  | .table entries => some entries
  | _ => none

end Value

/-- A table with one more entry, which takes the place of one of the same name. -/
def Table.set (entries : Table) (name : String) (value : Value) : Table :=
  Toml.Table.alter name (fun _ => value) entries

namespace Value

/-! ## TOML -/

mutual

/-- What a TOML value says. -/
def ofToml : Toml.Value → Value
  | .string s | .moment s => .text s
  | .integer n => .integer n
  | .real x => .real x
  | .boolean b => .boolean b
  | .array items => .array (ofTomlItems items)
  | .table entries => .table (ofTomlEntries entries)

/-- What the items of a TOML array say. -/
def ofTomlItems : List Toml.Value → List Value
  | [] => []
  | item :: items => ofToml item :: ofTomlItems items

/-- What the entries of a TOML table say. -/
def ofTomlEntries : List (String × Toml.Value) → Table
  | [] => []
  | (name, value) :: entries => (name, ofToml value) :: ofTomlEntries entries

end

/-! ## JSON -/

/-- An integer, or the nearest double if it has more than 64 bits. -/
def ofInteger (n : Int) : Value :=
  if n < 9223372036854775808 then .integer n else .real (Float.ofInt n)

mutual

/-- What a JSON value says, as far as the levels reach. Of several members with one key the last
one counts. -/
def ofJson? : Nat → Json → Option Value
  | _, .null => some .absent
  | _, .bool b => some (.boolean b)
  | _, .integer n => some (ofInteger n)
  | _, .real literal => (Decimal.stepwise? literal.toList).map .real
  | _, .string s => some (.text s)
  | _, .broken => none
  | 0, .array _ | 0, .object _ => none
  | depth + 1, .array items => (ofJsonItems? depth items).map .array
  | depth + 1, .object members => (ofJsonMembers? depth [] members).map .table

/-- What the items of a JSON array say. -/
def ofJsonItems? (depth : Nat) : List Json → Option (List Value)
  | [] => some []
  | item :: items => do
    let item ← ofJson? depth item
    pure (item :: (← ofJsonItems? depth items))

/-- What the members of a JSON object say, added to those before them. -/
def ofJsonMembers? (depth : Nat) (entries : Table) : List (String × Json) → Option Table
  | [] => some entries
  | (key, value) :: members => do
    let value ← ofJson? depth value
    ofJsonMembers? depth (entries.set key value) members

end

end Value

end YangBinding.Settings
