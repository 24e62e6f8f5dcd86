import YangBinding.Proofs.Calendar.Revisions
import YangBinding.Proofs.Json.Nesting
import YangBinding.Proofs.Json.Reading
import YangBinding.Wire.Source

/-!
# Model sources are read back

What is left out of the form of a source is what a reader supplies: no class, no namespace and no
revision where there is none, no keys where the list of keys is empty. Everything else is written,
defaults included. A declared node takes up two levels, its record and the array of its children, so
that a source is read back exactly if its declarations do not nest too deep.

## Main results

* `Wire.reads_nodeSource` — declared nodes, by induction on how they nest
* `Wire.reads_source` — whole sources
* `Schema.Source.ofText?_toText` — what is read from the text of a source
-/

namespace YangBinding

open Calendar (Date)
open Json Schema

namespace Wire

/-! ### The fields of the records -/

theorem nodeSources_eq_map (sources : List NodeSource) :
    nodeSources sources = sources.map nodeSource := by
  induction sources with
  | nil => rfl
  | cons source sources ih => rw [nodeSources, ih, List.map_cons]

/-- The keys of a list; nodes without keys leave the field out. -/
def keysField (keys : List String) : Option Json :=
  if keys.isEmpty then none else some (.array (keys.map .string))

theorem nodeSource_eq (s : NodeSource) : nodeSource s = .object (present
    [("kind", some (.string s.kind.text)), ("name", some (.string s.name)),
      ("namespace", s.ns.map .string), ("class", s.className.map .string),
      ("keys", keysField s.keys), ("config", some (.bool s.config)),
      ("children", some (.array (s.children.map nodeSource)))]) := by
  obtain ⟨kind, name, ns, className, keys, config, children⟩ := s
  rw [nodeSource, nodeSources_eq_map]
  cases ns <;> cases className <;> cases keys <;> rfl

theorem augmentSource_eq (a : AugmentSource) : augmentSource a = .object (present
    [("target", some (.string a.target)), ("class", a.className.map .string),
      ("children", some (.array (a.children.map nodeSource)))]) := by
  rw [augmentSource, nodeSources_eq_map]
  cases a.className <;> rfl

theorem moduleSource_eq (m : ModuleSource) : moduleSource m = .object (present
    [("name", some (.string m.name)), ("namespace", some (.string m.ns)),
      ("revision", (m.revision.map Date.text).map .string), ("class", m.className.map .string),
      ("children", some (.array (m.children.map nodeSource))),
      ("augments", some (.array (m.augments.map augmentSource)))]) := by
  rw [moduleSource, nodeSources_eq_map]
  cases m.revision <;> cases m.className <;> rfl

/-! ### Reading the fields -/

theorem readKind_text (depth : Nat) (kind : Kind) :
    readKind depth (.string kind.text) = some kind :=
  Kind.ofText?_text kind

theorem optional_revision (revision : Option Date) :
    optional readRevision ((revision.map Date.text).map .string) = some revision := by
  cases revision with
  | none => rfl
  | some d =>
    have hread : readRevision (.string d.text) = some d := by
      rw [readRevision, string?, Option.bind_eq_bind, Option.bind_some, Date.read?_text]
      rfl
    simp [Json.optional, hread]

theorem itemNesting_strings (keys : List String) : itemNesting (keys.map .string) = 0 := by
  induction keys with
  | nil => rfl
  | cons key keys ih => simp [itemNesting, nesting, ih]

theorem nesting_keysField_le (keys : List String) : (keysField keys).elim 0 nesting ≤ 1 := by
  unfold keysField
  split
  · exact Nat.zero_le 1
  · rw [Option.elim_some, nesting, itemNesting_strings]

/-- Keys that are left out are none. -/
theorem defaulted_keys (depth : Nat) (keys : List String) :
    defaulted [] (readList readString (depth + 1)) (keysField keys) = some keys := by
  have hkeys : Reads (readList readString) (.array (keys.map .string)) keys :=
    .list fun s _ => reads_string s
  unfold keysField
  split
  · next hnil => rw [List.isEmpty_iff.1 hnil, defaulted]
  · refine (hkeys.eq_some ?_ : readList readString (depth + 1) _ = _)
    rw [nesting, itemNesting_strings]
    omega

/-! ### Declarations -/

/-- A declared node is read if the nodes in it are. -/
theorem reads_nodeSource_of_children {s : NodeSource}
    (h : ∀ c ∈ s.children, Reads readNodeSource (nodeSource c) c) :
    Reads readNodeSource (nodeSource s) s := by
  have hchildren : Reads (readList readNodeSource) (.array (s.children.map nodeSource))
      s.children := .list h
  -- No other member nests as deep as the children may.
  have hnesting : (nodeSource s).nesting =
      1 + (Json.array (s.children.map nodeSource)).nesting := by
    have hkeys := nesting_keysField_le s.keys
    rw [nodeSource_eq, nesting]
    simp only [memberNesting_present_cons, memberNesting_present_nil, nesting_optional_string,
      Option.elim_some, nesting]
    omega
  have hsucc (depth : Nat) : readNodeSource (depth + 1) (nodeSource s) =
      (readList readNodeSource depth (.array (s.children.map nodeSource))).map
        fun children => { s with children } := by
    have hfields : fields? ["kind", "name", "namespace", "class", "keys", "config", "children"]
        (nodeSource s) = some [some (.string s.kind.text), some (.string s.name),
          s.ns.map .string, s.className.map .string, keysField s.keys, some (.bool s.config),
          some (.array (s.children.map nodeSource))] := by
      rw [nodeSource_eq]
      exact fields?_present (by simp)
    rw [readNodeSource, hfields]
    cases depth with
    | zero => simp [required, readKind_text, string?, optional_string, defaulted, readList]
    | succ depth =>
      simp only [required, readKind_text, string?, optional_string, defaulted_keys,
        Option.bind_eq_bind, Option.bind_some]
      rw [Option.map_eq_bind]
      rfl
  cases s
  exact hchildren.wrap _ hnesting rfl hsucc

mutual

/-- A declared node is read where it does not nest too deep, by induction on the nodes in it. -/
theorem reads_nodeSource : ∀ s : NodeSource, Reads readNodeSource (nodeSource s) s
  | ⟨_, _, _, _, _, _, children⟩ => reads_nodeSource_of_children (reads_nodeSources children)

theorem reads_nodeSources :
    ∀ sources : List NodeSource, ∀ s ∈ sources, Reads readNodeSource (nodeSource s) s
  | [] => List.forall_mem_nil _
  | source :: sources =>
    List.forall_mem_cons.2 ⟨reads_nodeSource source, reads_nodeSources sources⟩

end

theorem reads_augmentSource (a : AugmentSource) :
    Reads readAugmentSource (augmentSource a) a := by
  have hchildren : Reads (readList readNodeSource) (.array (a.children.map nodeSource))
      a.children := .list fun s _ => reads_nodeSource s
  have hnesting : (augmentSource a).nesting =
      1 + (Json.array (a.children.map nodeSource)).nesting := by
    rw [augmentSource_eq, nesting]
    simp only [memberNesting_present_cons, memberNesting_present_nil, nesting_optional_string,
      Option.elim_some, nesting]
    omega
  have hsucc (depth : Nat) : readAugmentSource (depth + 1) (augmentSource a) =
      (readList readNodeSource depth (.array (a.children.map nodeSource))).map
        fun children => { a with children } := by
    have hfields : fields? ["target", "class", "children"] (augmentSource a) =
        some [some (.string a.target), a.className.map .string,
          some (.array (a.children.map nodeSource))] := by
      rw [augmentSource_eq]
      exact fields?_present (by simp)
    rw [readAugmentSource, hfields]
    simp only [required, string?, optional_string, defaulted, Option.bind_eq_bind, Option.bind_some]
    rw [Option.map_eq_bind]
    rfl
  exact hchildren.wrap _ hnesting rfl hsucc

/-- The nodes and the augments of a module nest side by side. -/
theorem reads_moduleSource (m : ModuleSource) : Reads readModuleSource (moduleSource m) m := by
  have hchildren : Reads (readList readNodeSource) (.array (m.children.map nodeSource))
      m.children := .list fun s _ => reads_nodeSource s
  have haugments : Reads (readList readAugmentSource) (.array (m.augments.map augmentSource))
      m.augments := .list fun a _ => reads_augmentSource a
  have hnesting : (moduleSource m).nesting =
      (Json.object [("children", .array (m.children.map nodeSource)),
        ("augments", .array (m.augments.map augmentSource))]).nesting := by
    rw [moduleSource_eq, nesting, nesting]
    simp only [memberNesting_present_cons, memberNesting_present_nil, nesting_optional_string,
      Option.elim_some, memberNesting, nesting]
    omega
  have hfields : fields? ["name", "namespace", "revision", "class", "children", "augments"]
      (moduleSource m) = some [some (.string m.name), some (.string m.ns),
        (m.revision.map Date.text).map .string, m.className.map .string,
        some (.array (m.children.map nodeSource)),
        some (.array (m.augments.map augmentSource))] := by
    rw [moduleSource_eq]
    exact fields?_present (by simp)
  -- Both lists are one level below, and the deeper one decides.
  apply Reads.of_deep
  · rw [hnesting, nesting]
    omega
  · rfl
  · intro depth
    have hboth := hchildren.both haugments
      (fun children augments => ({ m with children, augments } : ModuleSource)) "children"
      "augments" depth
    rw [hnesting, ← hboth, readModuleSource, hfields]
    simp only [required, string?, optional_string, optional_revision, defaulted,
      Option.bind_eq_bind, Option.bind_some]
    rfl

/-- A source is read where its declarations do not nest too deep. -/
theorem reads_source (s : Source) : Reads readSource (source s) s := by
  have hmodules : Reads (readList readModuleSource) (.array (s.modules.map moduleSource))
      s.modules := .list fun m _ => reads_moduleSource m
  apply Reads.pair Source.mk (reads_string s.id) hmodules rfl
  intro depth
  simp [readSource, readString, fields?, uniqueMember?, required]

/-! ### What the text of a source denotes -/

/-- A record is plain if the fields that are not left out are. -/
theorem plain_present {fields : List (String × Option Json)}
    (h : ∀ field ∈ fields, ∀ j, field.2 = some j → j.Plain) :
    (Json.object (present fields)).Plain := by
  refine plain_object_iff.2 fun m hm => ?_
  obtain ⟨field, hfield, hm⟩ := List.mem_filterMap.1 hm
  obtain ⟨j, hj, rfl⟩ := Option.map_eq_some_iff.1 hm
  exact h field hfield j hj

theorem plain_keysField (keys : List String) : ∀ j, keysField keys = some j → j.Plain := by
  unfold keysField
  split <;> simp

theorem plain_nodeSource_of_children {s : NodeSource}
    (h : ∀ c ∈ s.children, (nodeSource c).Plain) : (nodeSource s).Plain := by
  rw [nodeSource_eq]
  apply plain_present
  simpa [Plain.bool] using And.intro (plain_keysField s.keys) h

mutual

theorem plain_nodeSource : ∀ s : NodeSource, (nodeSource s).Plain
  | ⟨_, _, _, _, _, _, children⟩ => plain_nodeSource_of_children (plain_nodeSources children)

theorem plain_nodeSources : ∀ sources : List NodeSource, ∀ s ∈ sources, (nodeSource s).Plain
  | [] => List.forall_mem_nil _
  | source :: sources =>
    List.forall_mem_cons.2 ⟨plain_nodeSource source, plain_nodeSources sources⟩

end

theorem plain_augmentSource (a : AugmentSource) : (augmentSource a).Plain := by
  rw [augmentSource_eq]
  apply plain_present
  simp [plain_nodeSource]

theorem plain_moduleSource (m : ModuleSource) : (moduleSource m).Plain := by
  rw [moduleSource_eq]
  apply plain_present
  simp [plain_nodeSource, plain_augmentSource]

/-- Nothing in a source goes beyond what its text can say. -/
theorem plain_source (s : Source) : (source s).Plain := by
  simp [source, plain_moduleSource]

end Wire

namespace Schema.Source

theorem ofText?_json (s : Source) : Json.ofText? s.toText = some (Wire.source s) :=
  (Wire.plain_source s).ofText?_write (some 0)

/-- The text of a source denotes the source exactly if its arrays and objects nest at most 127 deep;
the days in it are read back whatever their year. -/
theorem ofText?_toText (s : Source) :
    Json.ofText? s.toText = some (Wire.source s) ∧
      ofText? s.toText = (if (Wire.source s).nesting ≤ 127 then some s else none) ∧
        ∀ d : Date, Date.read? d.text = .ok d := by
  refine ⟨ofText?_json s, ?_, Date.read?_text⟩
  rw [ofText?, ofText?_json, Option.bind_some, ofJson?]
  exact Wire.reads_source s nestingLimit

end Schema.Source

end YangBinding
