import YangBinding.Schema.Walk

/-!
# Looking up data children

Data knows nothing of choices, cases and augments: whatever such layers contain appears directly
below the node that holds them. A child is therefore looked up through the layers, and the answer
says which layers were passed, so that objects, which do have a place for each layer, can be put
together around it.

## Main definitions

* `Layer`: an augment, or a case of a choice, between a node and its data child
* `DataChild`: a child with the layers passed on the way to it
* `Ref.findDataChild?`: the child of a name and, if given, a namespace
-/

namespace YangBinding.Schema

/-- What may lie between a node and its data child. -/
inductive Layer where
  /-- The child was contributed by an augment of the node. -/
  | augment (node : Ref)
  /-- The child belongs to a case of a choice of the node. -/
  | case (choice selected : Ref)

/-- The node in which the search goes on. -/
def Layer.node : Layer → Ref
  | .augment node => node
  | .case _ selected => selected

/-- A data child of a node, with the layers between the two, outermost first. -/
structure DataChild where
  node : Ref
  layers : List Layer := []

/-- The child as seen from outside one more layer. -/
def DataChild.under (found : DataChild) (layer : Layer) : DataChild :=
  { found with layers := layer :: found.layers }

namespace Ref

/-- The layers directly in a node, in the order of the search: its augments, then the cases of its
choices. -/
def layers (r : Ref) : List Layer :=
  r.augments.map .augment ++
    (r.children.filter fun c => c.kind == .choice).flatMap fun choice =>
      choice.cases.map (.case choice)

/-- Cases are later than the choice they belong to. -/
theorem height_lt_of_mem_cases {choice selected : Ref} (h : selected ∈ choice.cases) :
    selected.height < choice.height := by
  simp only [cases, List.mem_filter, List.mem_append, List.mem_flatMap] at h
  obtain ⟨h | ⟨augment, ha, h⟩, -⟩ := h
  · exact height_lt_of_mem_later h
  · exact Nat.lt_trans (height_lt_of_mem_later h) (height_lt_of_mem_later ha)

theorem height_lt_of_mem_layers {r : Ref} {layer : Layer} (h : layer ∈ r.layers) :
    layer.node.height < r.height := by
  simp only [layers, List.mem_append, List.mem_map, List.mem_flatMap, List.mem_filter] at h
  obtain ⟨augment, ha, rfl⟩ | ⟨choice, ⟨hc, -⟩, selected, hs, rfl⟩ := h
  · simpa only [Layer.node] using height_lt_of_mem_later ha
  · simpa only [Layer.node] using
      Nat.lt_trans (height_lt_of_mem_cases hs) (height_lt_of_mem_later hc)

/-- The first child that is declared in the node itself and shows up in data. -/
def ownDataChild? (r : Ref) (name : String) (ns : Option String) : Option Ref :=
  r.children.find? fun c => !c.isLayer && c.id.fits name ns

/-- The data child of a name, and of a namespace if one is given. What the node itself declares
comes before what its augments contribute, and that before what its choices offer. -/
def findDataChild? (r : Ref) (name : String) (ns : Option String) : Option DataChild :=
  match r.ownDataChild? name ns with
  | some node => some { node }
  | none =>
    r.layers.attach.findSome? fun ⟨layer, h⟩ =>
      have := height_lt_of_mem_layers h
      (layer.node.findDataChild? name ns).map (·.under layer)
termination_by r.height

/-- A node itself declares what is found without passing a layer. -/
theorem findDataChild?_of_own {r node : Ref} {name : String} {ns : Option String}
    (h : r.ownDataChild? name ns = some node) : r.findDataChild? name ns = some { node } := by
  rw [findDataChild?, h]

/-- What a node does not declare is searched in its layers, one after the other. -/
theorem findDataChild?_of_not_own {r : Ref} {name : String} {ns : Option String}
    (h : r.ownDataChild? name ns = none) :
    r.findDataChild? name ns = r.layers.findSome? fun layer =>
      (layer.node.findDataChild? name ns).map (·.under layer) := by
  rw [findDataChild?, h]
  simp

end Ref

end YangBinding.Schema
