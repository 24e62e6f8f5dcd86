import YangBinding.Json.Basic
import YangBinding.Json.Token
import YangBinding.Text.Bytes

/-!
# Reading JSON

A text denotes the one value whose tokens it is made of. Nothing may follow the value, and commas
stand only between items.

## Main definitions

* `Json.ofTokens?`: the value that a token sequence spells
* `Json.ofText?`: the value that a text denotes
* `Json.ofBytes?`: the value that the text in some bytes denotes
-/

namespace YangBinding.Json

open Token

/-- The text of a key, none if it denotes none; a key has to be a string literal. -/
def keyOf? : Token → Option (Option String)
  | .string key => some (some key)
  | .brokenString => some none
  | _ => none

/-- The object with the given members. -/
def ofMembers (members : List (Option String × Json)) : Json :=
  match members.mapM fun m => m.1.map fun key => (key, m.2) with
  | some members => .object members
  | none => .broken

mutual

/-- The value at the head of a token sequence, and the tokens after it. -/
def readValue : Nat → List Token → Option (Json × List Token)
  | 0, _ | _, [] => none
  | fuel + 1, t :: rest =>
    match t with
    | .null => some (.null, rest)
    | .bool b => some (.bool b, rest)
    | .integer n => some (.integer n, rest)
    | .real literal => some (.real literal, rest)
    | .string s => some (.string s, rest)
    | .brokenString => some (.broken, rest)
    | .openArray =>
      match rest with
      | .closeArray :: rest => some (.array [], rest)
      | _ => (readItems fuel rest).map fun p => (.array p.1, p.2)
    | .openObject =>
      match rest with
      | .closeObject :: rest => some (.object [], rest)
      | _ => (readMembers fuel rest).map fun p => (ofMembers p.1, p.2)
    | .closeArray | .closeObject | .comma | .colon => none

/-- The items of an array up to its closing bracket, at least one. -/
def readItems : Nat → List Token → Option (List Json × List Token)
  | 0, _ => none
  | fuel + 1, ts =>
    match readValue fuel ts with
    | some (item, .closeArray :: rest) => some ([item], rest)
    | some (item, .comma :: rest) => (readItems fuel rest).map fun p => (item :: p.1, p.2)
    | _ => none

/-- The members of an object up to its closing brace, at least one. -/
def readMembers : Nat → List Token → Option (List (Option String × Json) × List Token)
  | 0, _ => none
  | fuel + 1, ts =>
    match ts with
    | t :: .colon :: rest => do
      let key ← keyOf? t
      match readValue fuel rest with
      | some (value, .closeObject :: rest) => some ([(key, value)], rest)
      | some (value, .comma :: rest) =>
        (readMembers fuel rest).map fun p => ((key, value) :: p.1, p.2)
      | _ => none
    | _ => none

end

/-- The value that a token sequence spells, all of it. A value is never deeper than twice the
number of its tokens, which bounds the descent. -/
def ofTokens? (ts : List Token) : Option Json :=
  match readValue (2 * ts.length + 1) ts with
  | some (value, []) => some value
  | _ => none

/-- The value that a text denotes. -/
def ofText? (s : String) : Option Json :=
  (scan? s).bind ofTokens?

/-- What stands for bytes that are no characters. Within a string literal it spoils the literal, and
everywhere else the text: the first character is part of no escape and no other token, and keeps the
trailing surrogate behind it from a partner. -/
def badBytes : List Char :=
  ['\ufffd', '\\', 'u', 'd', 'c', '0', '0']

/-- The value that the text in some bytes denotes. Bytes that are no characters may stand only in
what is ignored. -/
def ofBytes? (bytes : ByteArray) : Option Json :=
  ofText? (Text.ofBytes badBytes bytes)

end YangBinding.Json
