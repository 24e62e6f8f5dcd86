import YangBinding.Object.Field
import YangBinding.Schema.Error

/-!
# Errors

Everything that can go wrong after a model has been compiled: data that does not fit the schema,
nodes and classes that are not there, refused accesses, and failures of the world outside. Each
error carries what its wording needs; places in the schema and in data are given by their texts.

## Main definitions

* `ResolutionError`: something that is looked up is not there
* `StructuralError`: something is there but has the wrong form or stands in the wrong place
* `Error`, `Error.message`: all errors and their wording
-/

namespace YangBinding

open Schema (Kind ModelError)

/-- The place that data is put below: the path of a schema node, or the root. -/
def placeText : Option String → String
  | some path => path
  | none => "the schema root"

/-- What is looked up and not found. -/
inductive ResolutionError where
  | noNodeForClass (className : String)
  | noNodeForKey (key id : String)
  | noNodeUnder (id : String) (place : Option String)
  | noNodeNamed (name : String) (place : Option String)
  | noNodeAt (name id : String)
  | noChild (name path : String)
  | notADataClass (className : String) (kind : Kind) (name : String)
  | notAChild (className path : String)
  | noLeaf (className name : String)
  | noLeafFor (leaf : String)
  | notALeaf (leaf : String) (kind : Kind) (path : String)
  | noEnclosingClass (path : String)
  | noKeyClass (path : String)
  | noKeyLeaf (className name : String)
  | noKeyLeafInList (path name : String)
  | noClass (kind : Kind) (path : String)
  | noBoundClass (kind : Kind) (path : String)
  | noAnydataClass (path : String)
  | notAPayload (className holder : String)
  | notACase (className choice : String)
  | noField (className : String) (kind : Kind) (name : String)
  | noChoiceField (className choice : String)
  /-- The field holds something else than the schema declares. -/
  | fieldMismatch (field className : String) (type : FieldType) (kind : Kind)
  deriving DecidableEq, Repr

/-- The wording of a failed look-up. -/
def ResolutionError.message : ResolutionError → String
  | .noNodeForClass className => s!"no schema node for class '{className}'"
  | .noNodeForKey key id => s!"no schema node for '{key}' in {id}"
  | .noNodeUnder id place => s!"no schema node for '{id}' under {placeText place}"
  | .noNodeNamed name place => s!"no schema node '{name}' under {placeText place}"
  | .noNodeAt name id => s!"no schema node '{name}' at {id}"
  | .noChild name path => s!"no child '{name}' below {path}"
  | .notADataClass className kind name =>
    s!"class '{className}' is bound to {kind.text} '{name}', which is not a data node"
  | .notAChild className path => s!"class '{className}' is not a child of {path}"
  | .noLeaf className name => s!"class '{className}' has no leaf '{name}'"
  | .noLeafFor leaf => s!"no leaf for {leaf}"
  | .notALeaf leaf kind path => s!"{leaf} resolved to {kind.text} {path}"
  | .noEnclosingClass path => s!"no class encloses leaf {path}"
  | .noKeyClass path => s!"no key class bound for list {path}"
  | .noKeyLeaf className name => s!"key class '{className}' has no leaf '{name}'"
  | .noKeyLeafInList path name => s!"list {path} has no key leaf '{name}'"
  | .noClass kind path => s!"no class bound to {kind.text} {path}"
  | .noBoundClass kind path => s!"no runtime class bound to {kind.text} {path}"
  | .noAnydataClass path => s!"no class bound to anydata {path}"
  | .notAPayload className holder =>
    s!"class '{className}' is not registered as a payload of '{holder}'"
  | .notACase className choice => s!"class '{className}' is not a case of choice {choice}"
  | .noField className kind name => s!"class '{className}' has no field for {kind.text} '{name}'"
  | .noChoiceField className choice => s!"class '{className}' has no choice field '{choice}'"
  | .fieldMismatch field className type kind =>
    s!"field '{field}' of class '{className}' is a {type.kindName} accessor but the schema " ++
      s!"declares a {kind.text}"

/-- What has the wrong form or stands in the wrong place. -/
inductive StructuralError where
  | leafNotLast (step id : String)
  | afterLeaf (step last : String)
  | keyMismatch (key : String) (kind : Kind) (name : String)
  | listAbove (path : String)
  | listWithoutKey (path : String)
  | unexpectedKey (kind : Kind) (path : String)
  | unexpectedLeafValue (path : String)
  | leafForInner (key : String) (kind : Kind) (path : String)
  | innerForLeaf (key : String)
  | objectsBelowLeaf (kind : Kind) (path : String)
  | moduleObject (className : String)
  | foreignObject (className : String) (place : Option String)
  | foreignLeaf (leaf : String) (place : Option String)
  | leafValueCount (leaf : String) (count : Nat)
  | nothingBelow (kind : Kind) (name : String)
  | notBelow (child : String) (kind : Kind) (name : String)
  | notAddressedBelow (child : String) (kind : Kind) (name : String)
  | entryWithoutValue (name : String)
  | unexpectedValue (kind : Kind) (name : String)
  | exitAtRoot
  | notExited (count : Nat)
  | missingKeyLeaf (list key : String)
  | keyCount (list : String) (keys values : Nat)
  | listWithoutValues (list : String)
  deriving DecidableEq, Repr

/-- The wording of a structural error. -/
def StructuralError.message : StructuralError → String
  | .leafNotLast step id => s!"leaf segment {step} must be last in {id}"
  | .afterLeaf step last => s!"cannot append {step} after leaf {last}"
  | .keyMismatch key kind name => s!"key '{key}' does not match {kind.text} '{name}'"
  | .listAbove path => s!"list {path} above the first segment cannot be addressed without its key"
  | .listWithoutKey path => s!"list {path} addressed without a key"
  | .unexpectedKey kind path => s!"{kind.text} {path} addressed with a key"
  | .unexpectedLeafValue path => s!"leaf {path} addressed with a value"
  | .leafForInner key kind path => s!"leaf data node '{key}' given for {kind.text} {path}"
  | .innerForLeaf key => s!"inner data node '{key}' given for a leaf"
  | .objectsBelowLeaf kind path => s!"objects cannot be placed below {kind.text} {path}"
  | .moduleObject className =>
    s!"module class '{className}' has no data node; pass its leaves as leaf objects"
  | .foreignObject className place =>
    s!"class '{className}' does not belong under {placeText place}"
  | .foreignLeaf leaf place => s!"leaf {leaf} does not belong under {placeText place}"
  | .leafValueCount leaf count => s!"leaf {leaf} carries {count} values"
  | .nothingBelow kind name => s!"cannot build data below {kind.text} '{name}'"
  | .notBelow child kind name => s!"cannot add '{child}' below {kind.text} '{name}'"
  | .notAddressedBelow child kind name =>
    s!"cannot address '{child}' below {kind.text} '{name}'"
  | .entryWithoutValue name => s!"leaf-list '{name}' entry needs a value"
  | .unexpectedValue kind name => s!"a value cannot be given for {kind.text} '{name}'"
  | .exitAtRoot => "exit_data_node called at the root"
  | .notExited count => s!"{count} data node(s) were not exited"
  | .missingKeyLeaf list key => s!"entry of list '{list}' is missing key leaf '{key}'"
  | .keyCount list keys values =>
    s!"list '{list}' has {keys} keys but {values} values were given"
  | .listWithoutValues list => s!"list '{list}' must be addressed with its key values"

/-- An error of the library. -/
inductive Error where
  | resolution (cause : ResolutionError)
  | structural (cause : StructuralError)
  | unsupportedFormat (format : String)
  | model (cause : ModelError)
  | field (cause : FieldError)
  /-- A text is not the JSON form of what it should denote. -/
  | json
  /-- A file cannot be read or written. -/
  | io
  /-- The settings cannot be loaded. -/
  | config
  deriving DecidableEq, Repr

/-- The wording of an error. -/
def Error.message : Error → String
  | .resolution cause => "Schema resolution failed: " ++ cause.message
  | .structural cause => "Structural error: " ++ cause.message
  | .unsupportedFormat format => "Unsupported serializer format: " ++ format
  | .model cause => "Invalid schema model: " ++ cause.message
  | .field cause => "Field access failed: " ++ cause.message
  | .json => "JSON error: malformed document"
  | .io => "IO error: file not accessible"
  | .config => "Configuration error: settings not readable"

/-- The result of an operation that may fail. -/
abbrev Result (α : Type) := Except Error α

namespace Result

/-- A value that has to be there. -/
def found {α : Type} (cause : ResolutionError) : Option α → Result α
  | some a => .ok a
  | none => .error (.resolution cause)

/-- Refuses with a structural error. -/
def refuse {α : Type} (cause : StructuralError) : Result α :=
  .error (.structural cause)

/-- The result of an access to a field. -/
def ofField {α : Type} : Except FieldError α → Result α
  | .ok a => .ok a
  | .error cause => .error (.field cause)

/-- The result of an operation on a model. -/
def ofModel {α : Type} : Except ModelError α → Result α
  | .ok a => .ok a
  | .error cause => .error (.model cause)

end Result

end YangBinding
