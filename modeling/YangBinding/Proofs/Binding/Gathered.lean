import YangBinding.Proofs.Binding.Changes
import YangBinding.Proofs.Registry.Reachable

/-!
# What layers gather

The children of a data node are spread over objects: the object of the node itself, and one object
for each layer that some of them pass. Wherever a child ends up, it is together with all others of the
same node, and the field that is for them holds what they bring, in their order. Nothing else comes in
between, unless children pass different cases of a choice: then the choice keeps the last of them.

## Main definitions

* `Schema.DataChild.Rivals` — children in different cases of one choice
* `Registry.childFor?` — what a data node below a schema node stands for
* `Registry.NamesApart` — the nodes that a node declares differ in name
* `Object.within?` — the object behind layers, as the fields and extensions lead to it
* `Object.Layered` — the objects that lie behind layers of an object
* `Registry.Holds` — the field of a child holds what data nodes bring
* `Registry.Gathers` — an object holds data nodes, each with its likes behind its layers

## Main results

* `Registry.Reachable.holds_of_fill` — a child is held where its layers lead
* `Registry.Reachable.gathers_of_fill` — an object that is read gathers its data
-/

namespace YangBinding

open Schema (DataChild Layer Model Ref)
open YangBinding.Tree (Node)

deriving instance DecidableEq for Ref, Layer, DataChild

/-! ### Rivals -/

/-- The layers are different cases of one choice. -/
def Schema.Layer.Rivals : Layer → Layer → Prop
  | .case choice a, .case choice' b => choice = choice' ∧ a ≠ b
  | _, _ => False

/-- The children lie in different cases of one choice. -/
def Schema.DataChild.Rivals (e e' : DataChild) : Prop :=
  ∃ l ∈ e.layers, ∃ l' ∈ e'.layers, l.Rivals l'

instance : DecidableRel Layer.Rivals
  | .case choice a, .case choice' b => inferInstanceAs (Decidable (choice = choice' ∧ a ≠ b))
  | .case .., .augment _ | .augment _, _ => .isFalse id

instance : DecidableRel DataChild.Rivals := fun e e' =>
  inferInstanceAs (Decidable (∃ l ∈ e.layers, ∃ l' ∈ e'.layers, l.Rivals l'))

/-! ### Layers of an object -/

/-- The object behind layers: the augmentation of the class of an augment, the object that a choice
holds if it is of the class of the case, and so on. -/
def Object.within? : List Layer → Object → Option Object
  | [], o => some o
  | .augment augment :: layers, o => do
    let x ← o.augmentation? (← augment.className)
    within? layers x
  | .case choice selected :: layers, o => do
    let f ← o.type.field? choice.name
    let objects ← (f.objects o).toOption
    let x ← objects.find? fun x => selected.className = some x.className
    within? layers x

theorem Object.within?_augment {o x : Object} {augment : Ref} {className : String}
    (hname : augment.className = some className) (hx : o.augmentation? className = some x)
    (layers : List Layer) : o.within? (.augment augment :: layers) = x.within? layers := by
  simp [within?, hname, hx]

theorem Object.within?_case {o x : Object} {choice selected : Ref} {f : Field}
    (hfield : o.type.field? choice.name = some f) (hget : f.objects o = .ok [x])
    (hname : selected.className = some x.className) (layers : List Layer) :
    o.within? (.case choice selected :: layers) = x.within? layers := by
  simp [within?, hfield, hget, hname, Except.toOption]

/-- The objects that lie behind layers of an object, the object itself among them: augmentations, and
what choices hold. -/
inductive Object.Layered : Object → Object → Prop
  | refl (o : Object) : Layered o o
  | augmentation {o a x : Object} (mem : a ∈ o.augmentations) (rest : Layered a x) : Layered o x
  | case {o y x : Object} {f : Field} (field : o.type.field? f.name = some f)
    (holds : f.type = .choice) (mem : y ∈ o.objects f.name) (rest : Layered y x) : Layered o x

namespace Registry

/-- What a data node below a schema node stands for. -/
def childFor? (reg : Registry) (r : Ref) (n : Node) : Option DataChild :=
  reg.childOf? (some r) n.key.name n.key.ns

/-- The nodes that a node declares differ in name. -/
def NamesApart (reg : Registry) : Prop :=
  ∀ m ∈ reg.models, ∀ r ∈ m.refs, (r.declared.map Ref.name).Nodup

/-- The field of an object for a child holds what data nodes bring: the values, as the leaf stores
them, or the objects as which the data nodes are read. -/
inductive Holds (reg : Registry) (o : Object) (s : Ref) (nodes : List Node) : Prop
  | values {f : Field} {type : Scalar} {values : List LeafValue}
    (field : fieldFor o.type s = .ok f) (scalar : f.type.scalar? = some type)
    (stored : List.Forall₂ (fun n v => n.value?.bind type.store? = some v) nodes values)
    (get : f.values o = .ok (f.type.keeps values))
  | objects {f : Field} {objects : List Object}
    (field : fieldFor o.type s = .ok f) (holds : f.type.holdsValues = false)
    (read : List.Forall₂ (fun n x => reg.readObject n s = .ok x) nodes objects)
    (get : f.objects o = .ok (f.type.keeps objects))

/-- An object of a node holds data nodes. Each of them is held behind the layers of the child that it
stands for, together with all others that stand for the same; and no object behind layers is there
twice. -/
structure Gathers (reg : Registry) (r : Ref) (nodes : List Node) (o : Object) : Prop where
  held : ∀ n ∈ nodes, ∃ e x, reg.childFor? r n = some e ∧ o.within? e.layers = some x ∧
    reg.Holds x e.node (nodes.filter fun n => reg.childFor? r n = some e)
  single : ∀ x, o.Layered x → (x.augmentations.map Object.className).Nodup ∧
    ∀ f, x.type.field? f.name = some f → f.type = .choice → (x.objects f.name).length ≤ 1

variable {reg : Registry} {r s : Ref} {type : Class} {children : List Pending} {l : Layer}
  {own layered : List Change} {o x : Object} {c : Pending} {f : Field} {scalar : Scalar} {n : Node}
  {nodes : List Node} {e : DataChild} {name : String}

theorem childFor?_eq_some_iff : reg.childFor? r n = some e ↔ reg.resolveNode (some r) n = .ok e :=
  found_eq_ok_iff.symm

theorem leafValue_eq_ok_iff {v : LeafValue} : leafValue n = .ok v ↔ n.value? = some v := by
  unfold leafValue
  cases n.value? <;> simp [Result.refuse]

/-- What a node that is no anydata leads to is offered there. -/
theorem mem_offers_of_childFor? (hk : r.kind ≠ .anydata) (he : reg.childFor? r n = some e) :
    e ∈ r.offers := by
  obtain ⟨ns, he, -⟩ := exists_dataChild?_of_childOf? he
  have he := (mem_below_of_dataChild?_some he).1
  rwa [below, if_neg hk] at he

theorem NamesApart.eq_of_name (hn : reg.NamesApart) (hr : r.model ∈ reg.models) {t : Ref}
    (hs : s ∈ r.declared) (ht : t ∈ r.declared) (heq : s.name = t.name) : s = t :=
  List.eq_of_nodup_map (hn r.model hr r r.mem_refs_self) hs ht heq

/-! ### The next layers -/

/-- Children that are rivals behind a layer are rivals. -/
theorem rivals_of_behind {d : Pending} (h : c.behind.child.Rivals d.behind.child) :
    c.child.Rivals d.child := by
  obtain ⟨l, hl, l', hl', hrivals⟩ := h
  exact ⟨l, List.mem_of_mem_tail hl, l', List.mem_of_mem_tail hl', hrivals⟩

theorem nodup_distinct (layers : List Layer) : (distinct layers).Nodup := by
  induction layers with
  | nil => exact .nil
  | cons l layers ih =>
    rw [distinct, List.nodup_cons]
    refine ⟨fun hl => ?_, ih.filter _⟩
    simpa [beq_self] using (List.mem_filter.1 hl).2

theorem Offered.mem_nextLayers_iff (hP : Offered children r) :
    l ∈ nextLayers children ↔ ∃ c ∈ children, c.next? = some l := by
  rw [← List.mem_filterMap]
  exact ⟨mem_of_mem_distinct, mem_distinct fun l hl => hP.mem_layers hl⟩

theorem Offered.mem_layers_of_next (hP : Offered children r) (hl : l ∈ nextLayers children) :
    l ∈ r.layers :=
  hP.mem_layers (mem_of_mem_distinct hl)

/-- The choice of a case is declared in the node. -/
theorem declared_of_case_mem {choice selected : Ref} (hl : .case choice selected ∈ r.layers) :
    choice ∈ r.declared ∧ choice.kind = .choice := by
  obtain ⟨hc, hk, -⟩ := Ref.case_mem_layers_iff.1 hl
  exact ⟨List.mem_filter.2 ⟨hc, by simp [hk]⟩, hk⟩

/-- A child that passes no layer is no choice. -/
theorem Offered.kind_ne_choice (hP : Offered children r) (hc : c ∈ children) :
    c.schema.kind ≠ .choice := by
  intro hk
  have hl := Ref.isLayer_of_mem_offers (hP c hc)
  simp [Pending.child, Ref.isLayer_eq_false_iff, hk] at hl

/-- Among the children behind a layer, those that stand for the same are those that stand for the same
before it. -/
theorem Offered.map_data_behind (hP : Offered children r) (hl : l ∈ r.layers) :
    ((Registry.behind l children).filter fun c => c.child = e).map Pending.data =
      (children.filter fun c => c.child = e.under l).map Pending.data := by
  rw [Registry.behind, List.filter_map, List.map_map, List.filter_filter]
  congr 1
  refine List.filter_congr fun c hc => ?_
  rw [← Bool.coe_iff_coe]
  simp only [Function.comp_apply, Bool.and_eq_true, decide_eq_true_eq, Option.any_eq_true]
  constructor
  · rintro ⟨rfl, l', hl', heq⟩
    obtain rfl := layer_eq_of_beq hl (hP.of_next? hc hl').1 heq
    obtain ⟨rest, hlayers⟩ := List.head?_eq_some_iff.1 hl'
    simp [Pending.child, Pending.behind, DataChild.under, hlayers]
  · intro hchild
    have hlayers : c.layers = l :: e.layers := congrArg DataChild.layers hchild
    have hnode : c.schema = e.node := congrArg DataChild.node hchild
    refine ⟨?_, l, by simp [Pending.next?, hlayers], beq_self l⟩
    simp [Pending.child, Pending.behind, hlayers, hnode]

/-! ### Places of changes -/

section Places

/-- The layer is a case of the choice of a name. -/
def isCaseAt (name : String) : Layer → Bool
  | .case choice _ => choice.name = name
  | .augment _ => false

def isAugment : Layer → Bool
  | .augment _ => true
  | .case .. => false

/-- An object of its own is filled with the children behind a layer. -/
def FilledBehind (reg : Registry) (children : List Pending) (l : Layer) (x : Object) : Prop :=
  ∃ content, reg.classOf? l.node = some content ∧
    reg.fill (behind l children) content.new = .ok x

theorem valueAt?_eq_none {change : Change} (h : change.name? ≠ some name) :
    change.valueAt? name = none := by
  cases change <;> simp_all [Change.valueAt?, Change.name?]

theorem objectAt?_eq_none {change : Change} (h : change.name? ≠ some name) :
    change.objectAt? name = none := by
  cases change <;> simp_all [Change.objectAt?, Change.name?]

/-- What is filled behind layers brings no values. -/
theorem Fills.valueAt?_layered (hF : reg.Fills type children own layered) (name : String) :
    layered.filterMap (Change.valueAt? name) = [] := by
  refine List.filterMap_eq_nil_iff.2 fun change hchange => ?_
  obtain ⟨l, -, hst⟩ := hF.layered.exists_left hchange
  cases hst <;> rfl

/-- The cases of a choice that children pass, each with the object that is filled behind it. -/
theorem Fills.cases_at (hF : reg.Fills type children own layered) (name : String) :
    List.Forall₂ (reg.FilledBehind children) ((nextLayers children).filter (isCaseAt name))
      (layered.filterMap (Change.objectAt? name)) := by
  refine hF.layered.filterMap (fun l _ change hs hl => ?_) fun l _ change hs hl => ?_
  · cases hs with
    | augment => cases hl
    | @case choice selected content x f content_eq filled field =>
      refine ⟨x, ?_, content, content_eq, filled⟩
      have hname : choice.name = name := by simpa [isCaseAt] using hl
      rw [Change.objectAt?, if_pos ((Class.name_of_field? field).trans hname)]
  · cases hs with
    | augment => rfl
    | @case choice selected content x f content_eq filled field =>
      have hname : choice.name ≠ name := by simpa [isCaseAt] using hl
      rw [Change.objectAt?, if_neg fun heq => hname ((Class.name_of_field? field).symm.trans heq)]

/-- The augments that children pass, each with the object that is filled behind it. -/
theorem Fills.augmentations_at (hF : reg.Fills type children own layered) :
    List.Forall₂ (reg.FilledBehind children) ((nextLayers children).filter isAugment)
      ((own ++ layered).filterMap Change.augmentation?) := by
  have hown : own.filterMap Change.augmentation? = [] := by
    refine List.filterMap_eq_nil_iff.2 fun change hchange => ?_
    obtain ⟨c, -, hs⟩ := hF.own.exists_left hchange
    cases hs <;> rfl
  rw [List.filterMap_append, hown, List.nil_append]
  refine hF.layered.filterMap (fun l _ change hs hl => ?_) fun l _ change hs hl => ?_
  · cases hs with
    | augment content_eq filled => exact ⟨_, rfl, _, content_eq, filled⟩
    | case => cases hl
  · cases hs with
    | augment => cases hl
    | case => rfl

variable (hn : reg.NamesApart) (hr : r.model ∈ reg.models) (hP : Offered children r)
  (hF : reg.Fills type children own layered)
include hn hr hP hF

/-- Children that are declared in the node itself, in a form in which they correspond to changes. -/
theorem Fills.filter_own {γ : Type} {S : Pending → γ → Prop} {pick : Change → Option γ}
    (hs : s ∈ r.declared)
    (hin : ∀ c ∈ children, ∀ change, c.schema = s → Stores type c change →
      ∃ y, pick change = some y ∧ S c y)
    (hout : ∀ change : Change, change.name? ≠ some s.name → pick change = none) :
    List.Forall₂ S (children.filter fun c => c.child = { node := s }) (own.filterMap pick) := by
  have hfilter : (children.filter fun c => c.child = { node := s }) =
      (children.filter fun c => c.layers.isEmpty).filter fun c => c.schema = s := by
    rw [List.filter_filter]
    refine List.filter_congr fun c _ => ?_
    rw [← Bool.coe_iff_coe]
    simp [Pending.child]
  rw [hfilter]
  -- Changes of other children are of other names, since names tell what is declared apart.
  refine hF.own.filterMap
    (fun c hmem change hst hc => hin c (List.mem_filter.1 hmem).1 change (by simpa using hc) hst)
    fun c hmem change hst hc => hout change ?_
  obtain ⟨hmem, hempty⟩ := List.mem_filter.1 hmem
  rw [hst.name?_eq]
  intro heq
  have hne : c.schema ≠ s := by simpa using hc
  exact hne (hn.eq_of_name hr (hP.mem_declared hmem (List.isEmpty_iff.1 hempty)) hs
    (Option.some.inj heq))

/-- The values that the children bring to the field of a leaf or leaf-list. -/
theorem Fills.values_at (hs : s ∈ r.declared) (hf : fieldFor type s = .ok f)
    (ht : f.type.scalar? = some scalar) :
    List.Forall₂ (fun c v => c.data.value?.bind scalar.store? = some v)
      (children.filter fun c => c.child = { node := s })
      ((own ++ layered).filterMap (Change.valueAt? f.name)) := by
  have hname : f.name = s.name := Class.name_of_field? (fieldFor_eq_ok_iff.1 hf).1
  rw [List.filterMap_append, hF.valueAt?_layered, List.append_nil]
  refine hF.filter_own hn hr hP hs (fun c hmem change hc hst => ?_) fun change hne =>
    valueAt?_eq_none (hname ▸ hne)
  subst hc
  cases hst with
  | @value f' scalar' given stored field owner holds value accepted =>
    obtain rfl : f' = f := Except.ok.inj (field.symm.trans hf)
    obtain rfl : scalar' = scalar := Option.some.inj (holds.symm.trans ht)
    refine ⟨_, if_pos rfl, ?_⟩
    rw [leafValue_eq_ok_iff.1 value]
    exact accepted
  | @object f' x field owner holds object =>
    obtain rfl : f' = f := Except.ok.inj (field.symm.trans hf)
    rcases holds with holds | holds <;> simp [holds, FieldType.scalar?] at ht

/-- The objects that the children bring to the field of anything but a leaf, leaf-list or choice. -/
theorem Fills.objects_at (hobjects : ∀ c ∈ children, c.object = reg.readObject c.data c.schema)
    (hs : s ∈ r.declared) (hk : s.kind ≠ .choice) (hf : fieldFor type s = .ok f)
    (hv : f.type.holdsValues = false) :
    List.Forall₂ (fun c x => reg.readObject c.data s = .ok x)
      (children.filter fun c => c.child = { node := s })
      ((own ++ layered).filterMap (Change.objectAt? f.name)) := by
  have hname : f.name = s.name := Class.name_of_field? (fieldFor_eq_ok_iff.1 hf).1
  -- Behind layers there are only the objects of choices, and these have other names.
  have hlayered : layered.filterMap (Change.objectAt? f.name) = [] := by
    refine List.filterMap_eq_nil_iff.2 fun change hchange => ?_
    obtain ⟨l, hl, hst⟩ := hF.layered.exists_left hchange
    cases hst with
    | augment => rfl
    | case _ _ field =>
      obtain ⟨hchoice, hck⟩ := declared_of_case_mem (hP.mem_layers_of_next hl)
      refine objectAt?_eq_none fun heq => hk ?_
      have heq := (Class.name_of_field? field).symm.trans ((Option.some.inj heq).trans hname)
      rw [← hn.eq_of_name hr hchoice hs heq, hck]
  rw [List.filterMap_append, hlayered, List.append_nil]
  refine hF.filter_own hn hr hP hs (fun c hmem change hc hst => ?_) fun change hne =>
    objectAt?_eq_none (hname ▸ hne)
  subst hc
  cases hst with
  | @value f' scalar given stored field owner holds value accepted =>
    obtain rfl : f' = f := Except.ok.inj (field.symm.trans hf)
    simp [FieldType.holdsValues_of_scalar? holds] at hv
  | @object f' x field owner holds object =>
    obtain rfl : f' = f := Except.ok.inj (field.symm.trans hf)
    exact ⟨x, if_pos rfl, (hobjects c hmem).symm.trans object⟩

/-- To the field of a choice no child brings anything itself. -/
theorem Fills.objectAt?_of_choice (hs : s ∈ r.declared) (hk : s.kind = .choice) :
    own.filterMap (Change.objectAt? s.name) = [] := by
  refine List.filterMap_eq_nil_iff.2 fun change hchange => objectAt?_eq_none fun heq => ?_
  obtain ⟨c, hc, hst⟩ := hF.own.exists_left hchange
  obtain ⟨hmem, hempty⟩ := List.mem_filter.1 hc
  have hname := Option.some.inj (hst.name?_eq.symm.trans heq)
  have heq := hn.eq_of_name hr (hP.mem_declared hmem (List.isEmpty_iff.1 hempty)) hs hname
  exact hP.kind_ne_choice hmem (heq ▸ hk)

end Places

/-! ### Where children are held -/

/-- A child that passes no layer is held in its field, together with its likes. -/
theorem NamesApart.holds_of_fill (hn : reg.NamesApart) (hr : r.model ∈ reg.models)
    (hP : Offered children r) (hobjects : ∀ c ∈ children, c.object = reg.readObject c.data c.schema)
    (hf : reg.fill children type.new = .ok o) (hc : c ∈ children) (hl : c.layers = []) :
    reg.Holds o c.schema ((children.filter fun d => d.child = c.child).map Pending.data) := by
  have htype : o.type = type := type_of_fill hf
  obtain ⟨own, layered, hF, rfl⟩ := fill_new_eq_ok_iff.1 hf
  have hs := hP.mem_declared hc hl
  have hchild : c.child = { node := c.schema } := by rw [Pending.child, hl]
  obtain ⟨change, -, hst⟩ :=
    hF.own.exists_right (List.mem_filter.2 ⟨hc, List.isEmpty_iff.2 hl⟩)
  rw [hchild]
  -- What the child itself has stored tells whether its field holds values or objects.
  cases hst with
  | @value f scalar given stored field owner holds value accepted =>
    have hfield := (fieldFor_eq_ok_iff.1 field).1
    have hv := FieldType.holdsValues_of_scalar? holds
    refine .values (htype.symm ▸ field) holds
      (List.forall₂_map_left_iff.2 (hF.values_at hn hr hP hs field holds)) ?_
    rw [values_eq (htype.symm ▸ owner), Change.leafValues_foldl hF.of
      (Class.mem_ownFields hfield owner) hv (Class.field?_name hfield)]
  | @object f x field owner holds object =>
    have hfield := (fieldFor_eq_ok_iff.1 field).1
    have hv : f.type.holdsValues = false := by
      rcases holds with holds | holds <;> rw [holds] <;> rfl
    refine .objects (htype.symm ▸ field) hv (List.forall₂_map_left_iff.2
      (hF.objects_at hn hr hP hobjects hs (hP.kind_ne_choice hc) field hv)) ?_
    rw [objects_eq (htype.symm ▸ owner), Change.objects_foldl hF.of
      (Class.mem_ownFields hfield owner) hv (Class.field?_name hfield)]

section Held

variable (h : reg.Reachable) (hn : reg.NamesApart)
include h

/-- What is filled behind a layer is of the class to which the layer is bound. -/
theorem Reachable.className_of_filledBehind (hx : reg.FilledBehind children l x) :
    l.node.className = some x.className := by
  obtain ⟨content, hcontent, hx⟩ := hx
  rw [h.className_of_classOf? hcontent]
  exact congrArg (fun c => some (Class.className c)) (type_of_fill hx).symm

/-- No two of the augmentations that are filled are of the same class. -/
theorem Reachable.nodup_augmentations (hr : r.model ∈ reg.models) (hP : Offered children r)
    (hF : reg.Fills type children own layered) :
    (((own ++ layered).filterMap Change.augmentation?).map Object.className).Nodup := by
  refine hF.augmentations_at.nodup_map ((nodup_distinct _).filter _)
    fun l hl l' hl' x x' hx hx' heq => ?_
  obtain ⟨hl, haug⟩ := List.mem_filter.1 hl
  obtain ⟨hl', haug'⟩ := List.mem_filter.1 hl'
  have hm := Ref.model_of_mem_layers (hP.mem_layers_of_next hl)
  have hm' := Ref.model_of_mem_layers (hP.mem_layers_of_next hl')
  have hnode : l.node = l'.node := h.eq_of_className (hm ▸ hr) (hm'.trans hm.symm)
    (h.className_of_filledBehind hx) (heq ▸ h.className_of_filledBehind hx')
  cases l <;> cases l' <;> simp_all [isAugment, Layer.node]

/-- What is filled behind an augment is the augmentation of its class. -/
theorem Reachable.augmentation_of_fills (hr : r.model ∈ reg.models) (hP : Offered children r)
    (hF : reg.Fills type children own layered) {augment : Ref}
    (hl : .augment augment ∈ nextLayers children) :
    ∃ x, reg.FilledBehind children (.augment augment) x ∧
      ((own ++ layered).foldl Object.apply type.new).augmentation? x.className = some x := by
  obtain ⟨x, hmem, hx⟩ := hF.augmentations_at.exists_right (List.mem_filter.2 ⟨hl, rfl⟩)
  have hnodup := h.nodup_augmentations hr hP hF
  refine ⟨x, hx, ?_⟩
  rw [Change.foldl_apply hF.of, Object.augmentation?, Class.augmentations_make,
    List.latest_of_nodup hnodup]
  exact List.find?_eq_some_of_unique hmem (by simp) fun y hy heq =>
    List.eq_of_nodup_map hnodup hy hmem (by simpa using heq)

omit h in
/-- What is filled behind the only case of a choice is what the choice holds. -/
theorem NamesApart.objects_of_fills (hn : reg.NamesApart) (hr : r.model ∈ reg.models)
    (hP : Offered children r) (hF : reg.Fills type children own layered) {choice selected : Ref}
    (hl : .case choice selected ∈ nextLayers children)
    (hsole : ∀ l' ∈ nextLayers children, ¬ (Layer.case choice selected).Rivals l') :
    ∃ f x, type.field? choice.name = some f ∧ reg.FilledBehind children (.case choice selected) x ∧
      f.objects ((own ++ layered).foldl Object.apply type.new) = .ok [x] := by
  obtain ⟨hdeclared, hkind⟩ := declared_of_case_mem (hP.mem_layers_of_next hl)
  obtain ⟨change, -, hst⟩ := hF.layered.exists_right hl
  cases hst with
  | @case _ _ content _ f content_eq filled field holds owner =>
    have hname : f.name = choice.name := Class.name_of_field? field
    -- No other case of the choice is passed, so nothing else is stored in its field.
    have hcases : (nextLayers children).filter (isCaseAt choice.name) = [.case choice selected] := by
      refine List.eq_singleton_of_unique ((nodup_distinct _).filter _)
        (List.mem_filter.2 ⟨hl, by simp [isCaseAt]⟩) fun l' hmem => ?_
      obtain ⟨hl', hcase⟩ := List.mem_filter.1 hmem
      cases l' with
      | augment a => cases hcase
      | case choice' b =>
        obtain ⟨hdeclared', -⟩ := declared_of_case_mem (hP.mem_layers_of_next hl')
        obtain rfl : choice' = choice :=
          hn.eq_of_name hr hdeclared' hdeclared (by simpa [isCaseAt] using hcase)
        by_contra hne
        exact hsole _ hl' ⟨rfl, fun heq => hne (congrArg _ heq.symm)⟩
    have hall := hF.cases_at choice.name
    rw [hcases] at hall
    obtain ⟨x, _, hx, hnil, hobjects⟩ := List.forall₂_cons_left_iff.1 hall
    obtain rfl := List.forall₂_nil_left_iff.1 hnil
    have htype : ((own ++ layered).foldl Object.apply type.new).type = type :=
      type_of_fill (fill_new_eq_ok_iff.2 ⟨own, layered, hF, rfl⟩)
    refine ⟨f, x, field, hx, (objects_eq (htype.symm ▸ owner)).trans (congrArg Except.ok ?_)⟩
    rw [Change.objects_foldl hF.of (Class.mem_ownFields field owner) (by rw [holds]; rfl)
      (Class.field?_name field), List.filterMap_append, hname,
      hF.objectAt?_of_choice hn hr hP hdeclared hkind, hobjects, List.nil_append,
      FieldType.keeps_singleton]

/-- What is filled behind a layer is found there, unless children pass another case of the same
choice. -/
theorem Reachable.exists_within (hn : reg.NamesApart) (hr : r.model ∈ reg.models)
    (hP : Offered children r) (hF : reg.Fills type children own layered)
    (hl : l ∈ nextLayers children) (hsole : ∀ l' ∈ nextLayers children, ¬ l.Rivals l') :
    ∃ x, reg.FilledBehind children l x ∧ ∀ layers,
      ((own ++ layered).foldl Object.apply type.new).within? (l :: layers) = x.within? layers := by
  cases l with
  | augment augment =>
    obtain ⟨x, hx, hfind⟩ := h.augmentation_of_fills hr hP hF hl
    exact ⟨x, hx, Object.within?_augment (h.className_of_filledBehind hx) hfind⟩
  | case choice selected =>
    obtain ⟨f, x, field, hx, hget⟩ := hn.objects_of_fills hr hP hF hl hsole
    have htype : ((own ++ layered).foldl Object.apply type.new).type = type :=
      type_of_fill (fill_new_eq_ok_iff.2 ⟨own, layered, hF, rfl⟩)
    exact ⟨x, hx, Object.within?_case (htype.symm ▸ field) hget (h.className_of_filledBehind hx)⟩

/-- A child is held where its layers lead, together with its likes, unless some other child passes
another case of a choice. -/
theorem Reachable.holds_of_fill (hn : reg.NamesApart) (hr : r.model ∈ reg.models)
    (hP : Offered children r) (hobjects : ∀ c ∈ children, c.object = reg.readObject c.data c.schema)
    (hf : reg.fill children type.new = .ok o) (hc : c ∈ children)
    (hsole : ∀ d ∈ children, ¬ c.child.Rivals d.child) :
    ∃ x, o.within? c.layers = some x ∧
      reg.Holds x c.schema ((children.filter fun d => d.child = c.child).map Pending.data) := by
  -- By induction on the layers that the child passes.
  induction hlayers : c.layers generalizing children r type o c with
  | nil => exact ⟨o, rfl, hn.holds_of_fill hr hP hobjects hf hc hlayers⟩
  | cons l layers ih =>
    obtain ⟨own, layered, hF, rfl⟩ := fill_new_eq_ok_iff.1 hf
    have hnext : c.next? = some l := by rw [Pending.next?, hlayers, List.head?_cons]
    have hl : l ∈ nextLayers children := hP.mem_nextLayers_iff.2 ⟨c, hc, hnext⟩
    have hlr := hP.mem_layers_of_next hl
    obtain ⟨x, ⟨content, -, hx⟩, hwithin⟩ := h.exists_within hn hr hP hF hl <| by
      intro l' hl' hrivals
      obtain ⟨d, hd, hdl⟩ := hP.mem_nextLayers_iff.1 hl'
      exact hsole d hd ⟨l, List.mem_of_mem_head? hnext, l', List.mem_of_mem_head? hdl, hrivals⟩
    have hbehind : c.behind ∈ behind l children := by
      refine List.mem_map_of_mem (List.mem_filter.2 ⟨hc, ?_⟩)
      rw [hnext]
      exact beq_self l
    have hobjects' : ∀ d ∈ behind l children, d.object = reg.readObject d.data d.schema := by
      intro _ hbehind
      obtain ⟨d, hd, rfl⟩ := List.mem_map.1 hbehind
      exact hobjects d (List.mem_filter.1 hd).1
    have hsole' : ∀ d ∈ behind l children, ¬ c.behind.child.Rivals d.child := by
      intro _ hbehind hrivals
      obtain ⟨d, hd, rfl⟩ := List.mem_map.1 hbehind
      exact hsole d (List.mem_filter.1 hd).1 (rivals_of_behind hrivals)
    have htail : c.behind.layers = layers := by rw [Pending.behind, hlayers, List.tail_cons]
    obtain ⟨y, hy, hholds⟩ := ih ((Ref.model_of_mem_layers hlr).symm ▸ hr) (hP.behind hlr)
      hobjects' hx hbehind hsole' htail
    refine ⟨y, (hwithin layers).trans hy, ?_⟩
    have hchild : c.behind.child.under l = c.child := by
      simp [Pending.child, Pending.behind, DataChild.under, hlayers]
    rwa [hP.map_data_behind hlr, hchild] at hholds

end Held

/-! ### Nothing is there twice -/

/-- What a change brings to a field of a class, it brings to the very field that the class knows by the
name. -/
theorem eq_object_of_objectAt? {change : Change} (hof : change.Of type)
    (hfield : type.field? f.name = some f) (hx : change.objectAt? f.name = some x) :
    change = .object f x := by
  cases change with
  | object g y =>
    rw [Change.objectAt?] at hx
    split at hx
    · next hname =>
      cases hx
      rw [Option.some.inj (Eq.trans (Eq.symm hof) (hname ▸ hfield))]
    · cases hx
  | value g v => cases hx
  | augmentation y => cases hx

/-- Whatever lies behind layers of an object that has been filled has been filled itself. -/
theorem fill_of_layered (ho : o.Layered x) (hf : reg.fill children type.new = .ok o) :
    ∃ (others : List Pending) (content : Class), reg.fill others content.new = .ok x := by
  -- Each layer was filled by itself, with the children that pass it.
  induction ho generalizing children type with
  | refl o => exact ⟨children, type, hf⟩
  | @augmentation o a x mem rest ih =>
    obtain ⟨own, layered, hF, rfl⟩ := fill_new_eq_ok_iff.1 hf
    rw [Change.foldl_apply hF.of, Class.augmentations_make] at mem
    obtain ⟨l, -, content, -, hx⟩ := hF.augmentations_at.exists_left (List.mem_of_mem_latest mem)
    exact ih hx
  | @case o y x f field holds mem rest ih =>
    have htype : o.type = type := type_of_fill hf
    obtain ⟨own, layered, hF, rfl⟩ := fill_new_eq_ok_iff.1 hf
    rw [htype] at field
    rw [Change.foldl_apply hF.of, Class.objects_make] at mem
    split at mem
    · obtain ⟨change, hchange, hy⟩ := List.mem_filterMap.1 (Class.mem_of_mem_keeps mem)
      obtain rfl := eq_object_of_objectAt? (hF.of change hchange) field hy
      rcases List.mem_append.1 hchange with hchange | hchange
      · obtain ⟨c, -, hst⟩ := hF.own.exists_left hchange
        cases hst with
        | object _ _ container =>
          rcases container with container | container <;> simp [holds] at container
      · obtain ⟨l, -, hst⟩ := hF.layered.exists_left hchange
        cases hst with
        | case _ filled => exact ih filled
    · cases mem

/-- An object that has been filled has one augmentation of a class and one case in a choice. -/
theorem single_of_fill (hf : reg.fill children type.new = .ok o) :
    (o.augmentations.map Object.className).Nodup ∧
      ∀ f, o.type.field? f.name = some f → f.type = .choice → (o.objects f.name).length ≤ 1 := by
  have htype : o.type = type := type_of_fill hf
  obtain ⟨own, layered, hF, rfl⟩ := fill_new_eq_ok_iff.1 hf
  rw [htype, Change.foldl_apply hF.of]
  refine ⟨List.nodup_map_key_latest _ _, fun f hfield hk => ?_⟩
  rw [Class.objects_make, Class.keeps_eq hfield]
  split
  · exact FieldType.length_keeps (by rw [hk]; rfl)
  · exact Nat.zero_le 1

/-! ### Data nodes -/

/-- What data nodes stand for, each as it waits to be stored. -/
theorem readChildren_eq_ok_iff {pending : List Pending} :
    reg.readChildren r nodes = .ok pending ↔
      List.Forall₂ (fun n c => reg.childFor? r n = some c.child ∧ c.data = n ∧
        c.object = reg.readObject c.data c.schema) nodes pending := by
  rw [readChildren_eq_mapM, List.mapM_eq_ok_iff]
  have hiff (n : Node) (c : Pending) : reg.awaiting r n = .ok c ↔
      reg.childFor? r n = some c.child ∧ c.data = n ∧ c.object = reg.readObject c.data c.schema := by
    rw [awaiting_eq_ok_iff]
    constructor
    · rintro ⟨e, he, rfl⟩
      exact ⟨childFor?_eq_some_iff.2 he, rfl, rfl⟩
    · rintro ⟨he, rfl, hobject⟩
      refine ⟨c.child, childFor?_eq_some_iff.1 he, ?_⟩
      cases c
      simp_all [Pending.child]
  simp only [hiff]

/-- Data nodes that are resolved stand for children that are offered. -/
theorem offered_of_readChildren (hk : r.kind ≠ .anydata) {pending : List Pending}
    (hp : reg.readChildren r nodes = .ok pending) : Offered pending r := by
  intro c hc
  obtain ⟨n, -, he, -⟩ := (readChildren_eq_ok_iff.1 hp).exists_left hc
  exact mem_offers_of_childFor? hk he

theorem object_of_readChildren {pending : List Pending} (hp : reg.readChildren r nodes = .ok pending) :
    ∀ c ∈ pending, c.object = reg.readObject c.data c.schema := by
  intro c hc
  obtain ⟨n, -, -, -, hobject⟩ := (readChildren_eq_ok_iff.1 hp).exists_left hc
  exact hobject

/-- The data nodes of the same child are those that stand for it. -/
theorem map_data_of_readChildren {pending : List Pending}
    (hp : reg.readChildren r nodes = .ok pending) :
    (pending.filter fun d => d.child = e).map Pending.data =
      nodes.filter fun n => reg.childFor? r n = some e := by
  refine List.map_eq_of_forall₂ (List.Forall₂.filter (readChildren_eq_ok_iff.1 hp) fun n d hd => ?_)
    fun n d hd => hd.2.1
  rw [hd.1]
  simp

/-- An object that is read of data nodes none of which passes another case than others gathers them. -/
theorem Reachable.gathers_of_fill (h : reg.Reachable) (hn : reg.NamesApart)
    (hr : r.model ∈ reg.models) (hk : r.kind ≠ .anydata) {pending : List Pending}
    (hp : reg.readChildren r nodes = .ok pending)
    (hsole : ∀ c ∈ pending, ∀ d ∈ pending, ¬ c.child.Rivals d.child)
    (hf : reg.fill pending type.new = .ok o) : reg.Gathers r nodes o := by
  refine ⟨fun n hmem => ?_, fun x hx => ?_⟩
  · obtain ⟨c, hc, he, -⟩ := (readChildren_eq_ok_iff.1 hp).exists_right hmem
    obtain ⟨x, hx, hholds⟩ := h.holds_of_fill hn hr (offered_of_readChildren hk hp)
      (object_of_readChildren hp) hf hc (hsole c hc)
    exact ⟨c.child, x, he, hx, map_data_of_readChildren hp ▸ hholds⟩
  · obtain ⟨others, content, hx⟩ := fill_of_layered hx hf
    exact single_of_fill hx

end Registry

end YangBinding
