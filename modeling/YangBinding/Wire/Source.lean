import YangBinding.Json.Reader
import YangBinding.Json.Writer
import YangBinding.Schema.Source
import YangBinding.Wire.Leaf

/-!
# Model sources in JSON

The form in which schema compilers hand over their result. Class, namespace, revision and keys are
left out where there are none.

## Main definitions

* `Source.toText`: the written form of a source
* `Source.ofText?`: the source that a text denotes
-/

namespace YangBinding.Wire

open Json Schema

/-- The kind of a schema node. -/
def readKind : Reader Kind := fun depth j => do
  Kind.ofText? (← readName depth j)

/-- A revision: a string that denotes a day. -/
def readRevision (j : Json) : Option Calendar.Date := do
  (Calendar.Date.read? (← string? j)).toOption

/-! ## Writing -/

mutual

/-- A declared node as JSON. -/
def nodeSource : NodeSource → Json
  | ⟨kind, name, ns, className, keys, config, children⟩ =>
    .object ([("kind", .string kind.text), ("name", .string name)] ++
      optionalMember "namespace" ns ++ optionalMember "class" className ++
      (if keys.isEmpty then [] else [("keys", .array (keys.map .string))]) ++
      [("config", .bool config), ("children", .array (nodeSources children))])

/-- The items of an array of declared nodes. -/
def nodeSources : List NodeSource → List Json
  | [] => []
  | source :: sources => nodeSource source :: nodeSources sources

end

/-- A declared augment as JSON. -/
def augmentSource (a : AugmentSource) : Json :=
  .object (("target", .string a.target) :: optionalMember "class" a.className ++
    [("children", .array (nodeSources a.children))])

/-- A declared module as JSON. -/
def moduleSource (m : ModuleSource) : Json :=
  .object ([("name", .string m.name), ("namespace", .string m.ns)] ++
    optionalMember "revision" (m.revision.map Calendar.Date.text) ++
    optionalMember "class" m.className ++
    [("children", .array (nodeSources m.children)),
      ("augments", .array (m.augments.map augmentSource))])

/-- A source as JSON. -/
def source (s : Source) : Json :=
  .object [("id", .string s.id), ("modules", .array (s.modules.map moduleSource))]

/-! ## Reading -/

/-- A declared node. Its record and its children each open a level; without children the record
alone needs at most two. -/
def readNodeSource : Reader NodeSource
  | 0, _ => none
  | depth + 1, j => do
    let [kind, name, ns, className, keys, config, children] ← fields?
      ["kind", "name", "namespace", "class", "keys", "config", "children"] j | none
    return {
      kind := ← required (readKind depth) kind
      name := ← required string? name
      ns := ← optional string? ns
      className := ← optional string? className
      keys := ← defaulted [] (readList readString depth) keys
      config := ← defaulted true bool? config
      children := ← defaulted [] (fun j =>
        match depth with
        | 0 => none
        | depth + 1 => do (← items? j).mapM (readNodeSource depth)) children }

/-- A declared augment. -/
def readAugmentSource : Reader AugmentSource
  | 0, _ => none
  | depth + 1, j => do
    let [target, className, children] ← fields? ["target", "class", "children"] j | none
    return {
      target := ← required string? target
      className := ← optional string? className
      children := ← defaulted [] (readList readNodeSource depth) children }

/-- A declared module. -/
def readModuleSource : Reader ModuleSource
  | 0, _ => none
  | depth + 1, j => do
    let [name, ns, revision, className, children, augments] ← fields?
      ["name", "namespace", "revision", "class", "children", "augments"] j | none
    return {
      name := ← required string? name
      ns := ← required string? ns
      revision := ← optional readRevision revision
      className := ← optional string? className
      children := ← defaulted [] (readList readNodeSource depth) children
      augments := ← defaulted [] (readList readAugmentSource depth) augments }

/-- A source. -/
def readSource : Reader Source
  | 0, _ => none
  | depth + 1, j => do
    let [id, modules] ← fields? ["id", "modules"] j | none
    return {
      id := ← required string? id
      modules := ← required (readList readModuleSource depth) modules }

end YangBinding.Wire

namespace YangBinding.Schema.Source

/-- The written form of a source, laid out for reading. -/
def toText (s : Source) : String :=
  (Wire.source s).pretty

/-- The source that a JSON value denotes. -/
def ofJson? (j : Json) : Option Source :=
  Wire.readSource Json.nestingLimit j

/-- The source that a text denotes. -/
def ofText? (s : String) : Option Source :=
  (Json.ofText? s).bind ofJson?

end YangBinding.Schema.Source
