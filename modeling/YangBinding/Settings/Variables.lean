import YangBinding.Leaf.Scalar
import YangBinding.Settings.Value

/-!
# Settings from environment variables

A variable whose name starts with `YANG_RUNTIME__`, in letters of either case, is a setting. In the
rest of its name two underscores separate the parts of the key. Its value is a boolean or a number
if it reads as one, and a text otherwise.

Main definition: `layerOfVariables`, the layer that an environment makes.
-/

namespace YangBinding.Settings

/-- What the names of settings start with, in small letters. -/
def variableStart : List Char := "yang_runtime__".toList

/-- A name with a point in place of every two underscores, from the left. -/
def dotted : List Char → List Char
  | '_' :: '_' :: cs => '.' :: dotted cs
  | c :: cs => c :: dotted cs
  | [] => []

/-- The key that a variable sets, if it is a setting. -/
def keyOfVariable? (name : String) : Option String :=
  let lower := name.toList.map Char.toLower
  if variableStart.isPrefixOf lower then
    some (String.ofList (dotted (lower.drop variableStart.length)))
  else none

/-- The integer of 64 bits that a text denotes. -/
def integer64? (cs : List Char) : Option Int :=
  (Text.integer? true cs).filter fun n => decide (Scalar.FitsSigned .w64 n)

/-- What the text of a variable stands for. -/
def valueOfText (text : String) : Value :=
  let lower := String.ofList (text.toList.map Char.toLower)
  if lower = "true" then .boolean true
  else if lower = "false" then .boolean false
  else match integer64? text.toList with
    | some n => .integer n
    | none => ((Decimal.real? text.toList).map .real).getD (.text text)

/-- The settings in an environment. -/
def layerOfVariables (environment : List (String × String)) : Table :=
  environment.filterMap fun (name, text) => (keyOfVariable? name).map fun key => (key, valueOfText text)

end YangBinding.Settings
