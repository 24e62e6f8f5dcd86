import YangBinding.Binding.Reader
import YangBinding.Proofs.Binding.Restored
import YangBinding.Proofs.Outcome

/-!
# Reading back what was written

The data of an object is read child by child: every child is found again at its place in the schema,
and stored either in a field or, behind its layers, on an object for each layer. The children come in
the order of the slots that they were written from, so that the fields are filled one after the
other, and the children behind one layer are what was left of the content there. In the end just the
object has been put together that comes back.

## Main definitions

* `Registry.restrict` — fields that have been filled, while all others are empty
* `Registry.group?` — the layer of a slot, if anything shows behind it

## Main results

* `Registry.Described.readObject_objectNode` — the data of an object is read as what comes back of it
-/

namespace YangBinding

open Schema (DataChild Kind Layer Model Ref)
open YangBinding.Tree (Node)

namespace Registry

variable {reg : Registry} {m : Model} {o x y : Object} {r s child augment : Ref} {p : Placed}
  {l l' : Layer} {f : Field} {type : Class}

/-! ### Filling fields -/

/-- The content of the fields that have been filled, all others being empty. -/
def restrict {α : Type} (content : String → List α) (filled : List String) (name : String) :
    List α :=
  if name ∈ filled then content name else []

theorem update_restrict {α : Type} (content : String → List α) (filled : List String)
    (name : String) :
    Function.update (restrict content filled) name (content name) =
      restrict content (filled ++ [name]) := by
  funext k
  by_cases hk : k = name
  · subst hk
    simp [restrict]
  · simp [restrict, hk]

theorem restrict_of_notMem {α : Type} {content : String → List α} {filled : List String}
    {name : String} (h : name ∉ filled) : restrict content filled name = [] :=
  if_neg h

section Assign

variable {values : String → List LeafValue} {objects : String → List Object}
  {augmentations anydata : List Object}

/-- A value is added to what its field holds; a leaf holds nothing before. -/
theorem assign_value (hf : reg.FieldFor type child f) (hk : child.kind.isLeafLike = true)
    {v : LeafValue} (hv : ∀ t, f.type.scalar? = some t → t.store? v = some v)
    (hsingle : child.kind = .leaf → values child.name = []) {pending : Pending}
    (hschema : pending.schema = child) (hdata : pending.data = leafNode child v) :
    assign (type.make values objects augmentations anydata) pending =
      .ok (type.make (Function.update values child.name (values child.name ++ [v])) objects
        augmentations anydata) := by
  have htarget : f.checkTarget (type.make values objects augmentations anydata) = .ok () :=
    hf.checkTarget_eq (Class.type_make ..)
  have hvalue : leafValue pending.data = .ok v := by
    rw [hdata, leafNode]
    split <;> rfl
  have hsuits := hf.suits
  rw [assign, hschema, Class.type_make, hf.found]
  cases hft : f.type with
  | leaf t =>
    have hleaf : child.kind = .leaf := by simpa [hft, FieldType.suits] using hsuits
    have hstore := hv t (by rw [hft]; rfl)
    simp only [hft, bind, Except.bind, hvalue, Field.setLeaf, htarget, Scalar.store, hstore, pure,
      Except.pure, Result.ofField, Class.updateLeaf_make, hf.name_eq, hsingle hleaf, List.nil_append]
  | leafList t =>
    have hstore := hv t (by rw [hft]; rfl)
    simp only [hft, bind, Except.bind, hvalue, Field.pushLeaf, htarget, Scalar.store, hstore, pure,
      Except.pure, Result.ofField, Class.updateLeaf_make, hf.name_eq]
  | _ =>
    rw [hft] at hsuits
    cases hkind : child.kind <;>
      simp_all [FieldType.suits, Kind.isLeafLike, Kind.isSingleObject]

/-- An object is added to what its field holds; a field that takes one object holds nothing
before. -/
theorem assign_object (hf : reg.FieldFor type child f) (hk : child.kind.isLeafLike = false)
    (hchoice : child.kind ≠ .choice) (hy : reg.classOf? child = some y.type)
    (hsingle : child.kind ≠ .list → objects child.name = []) {pending : Pending}
    (hschema : pending.schema = child) (hobject : pending.object = .ok y) :
    assign (type.make values objects augmentations anydata) pending =
      .ok (type.make values (Function.update objects child.name (objects child.name ++ [y]))
        augmentations anydata) := by
  have htarget : f.checkTarget (type.make values objects augmentations anydata) = .ok () :=
    hf.checkTarget_eq (Class.type_make ..)
  have hchild (t : String) (ht : f.type = .container t ∨ f.type = .list t) :
      f.checkChild t y = .ok () := by
    obtain ⟨type', htype, rfl⟩ := hf.objects t ht
    rw [hy] at htype
    cases htype
    rw [Field.checkChild, if_pos rfl]
  have hsuits := hf.suits
  rw [assign, hschema, Class.type_make, hf.found]
  cases hft : f.type with
  | container t =>
    have hlist : child.kind ≠ .list := by
      rintro hlist
      simp [hft, FieldType.suits, hlist, Kind.isSingleObject] at hsuits
    simp only [hft, bind, Except.bind, hobject, Field.setContainer, hchild t (.inl hft), htarget, pure,
      Except.pure, Result.ofField, Class.updateMember_make, hf.name_eq, hsingle hlist,
      List.nil_append]
  | list t =>
    simp only [hft, bind, Except.bind, hobject, Field.pushEntry, hchild t (.inr hft), htarget, pure,
      Except.pure, Result.ofField, Class.updateMember_make, hf.name_eq]
  | _ =>
    rw [hft] at hsuits
    cases hkind : child.kind <;> simp_all [FieldType.suits, Kind.isLeafLike]

/-- Values are added one after the other; a leaf has one. -/
theorem foldlM_assign_values (hf : reg.FieldFor type child f) (hk : child.kind.isLeafLike = true)
    {vs : List LeafValue}
    (hvs : ∀ v ∈ vs, ∀ t, f.type.scalar? = some t → t.store? v = some v)
    (hsingle : child.kind = .leaf → (values child.name ++ vs).length ≤ 1)
    {q : LeafValue → Pending}
    (hpending : ∀ v, (q v).schema = child ∧ (q v).data = leafNode child v) :
    (vs.map q).foldlM assign (type.make values objects augmentations anydata) =
      .ok (type.make (Function.update values child.name (values child.name ++ vs)) objects
        augmentations anydata) := by
  induction vs generalizing values with
  | nil => simp [pure, Except.pure]
  | cons v vs ih =>
    have hempty : child.kind = .leaf → values child.name = [] := by
      intro hleaf
      have hle := hsingle hleaf
      simp only [List.length_append, List.length_cons] at hle
      exact List.eq_nil_of_length_eq_zero (by omega)
    rw [List.map_cons, List.foldlM_cons, assign_value hf hk (hvs v List.mem_cons_self) hempty
      (hpending v).1 (hpending v).2]
    change List.foldlM assign (type.make (Function.update values child.name _) ..) _ = _
    rw [ih (fun w hw => hvs w (List.mem_cons_of_mem _ hw)) (by simpa using hsingle)]
    simp

/-- Objects are added one after the other; a field that takes one object gets one. -/
theorem foldlM_assign_objects (hf : reg.FieldFor type child f) (hk : child.kind.isLeafLike = false)
    (hchoice : child.kind ≠ .choice) {xs : List Object} {b : Object → Object}
    (hback : ∀ x ∈ xs, reg.classOf? child = some (b x).type)
    (hsingle : child.kind ≠ .list → (objects child.name).length + xs.length ≤ 1)
    {q : Object → Pending}
    (hpending : ∀ x ∈ xs, (q x).schema = child ∧ (q x).object = .ok (b x)) :
    (xs.map q).foldlM assign (type.make values objects augmentations anydata) =
      .ok (type.make values
        (Function.update objects child.name (objects child.name ++ xs.map b))
        augmentations anydata) := by
  induction xs generalizing objects with
  | nil => simp [pure, Except.pure]
  | cons x xs ih =>
    have hempty : child.kind ≠ .list → objects child.name = [] := by
      intro hlist
      have hle := hsingle hlist
      rw [List.length_cons] at hle
      exact List.eq_nil_of_length_eq_zero (by omega)
    obtain ⟨hschema, hobject⟩ := hpending x List.mem_cons_self
    rw [List.map_cons, List.foldlM_cons,
      assign_object hf hk hchoice (hback x List.mem_cons_self) hempty hschema hobject]
    change List.foldlM assign (type.make _ (Function.update objects child.name _) ..) _ = _
    rw [ih (fun y hy => hback y (List.mem_cons_of_mem _ hy)) (by
        intro hlist
        have := hsingle hlist
        simp only [Function.update_self, List.length_append, List.length_cons,
          List.length_nil] at this ⊢
        omega) (fun y hy => hpending y (List.mem_cons_of_mem _ hy))]
    simp

end Assign

/-- A data node of the content of an object as it waits to be stored. -/
def pendingOf (reg : Registry) (p : Placed) : Pending where
  layers := p.place.layers
  schema := p.place.node
  data := p.data
  object := reg.readObject p.data p.place.node

section Described

variable (h : reg.Described m) (hr : r.model = m) (hh : HoldsObjects r)
include h hr hh

/-- The data nodes of a child fill its field with what comes back there. -/
theorem Described.foldlM_assign_field (ht : reg.Typed o r) (hc : child ∈ r.declared)
    (hchoice : child.kind ≠ .choice)
    (hread : child.kind.isLeafLike = false → ∀ x ∈ o.objects child.name,
      reg.readObject (reg.objectNode x child) child = .ok (reg.restored x child))
    {values : String → List LeafValue} {objects : String → List Object}
    {augmentations anydata : List Object} (hvalues : values child.name = [])
    (hobjects : objects child.name = []) :
    ((reg.keptOf o r (.field child)).map reg.pendingOf).foldlM assign
        (o.type.make values objects augmentations anydata) =
      .ok (if child.kind.isLeafLike = true then
        o.type.make (Function.update values child.name ((o.leafValues child.name).latest id)) objects
          augmentations anydata
      else o.type.make values (Function.update objects child.name (reg.restoredIn o child))
          augmentations anydata) := by
  obtain ⟨hclass, hproper⟩ := ht.here
  obtain ⟨f, hf⟩ := h.classified.exists_field hr hh hclass hc
  rw [keptOf, slotContent]
  by_cases hk : child.kind.isLeafLike = true
  · rw [if_pos hk, if_pos hk, ← h.leafContent_restored hr hh ht hc hk, leafContent,
      h.leafValues_restored hr hh ht hc hk, List.map_map]
    rw [foldlM_assign_values hf hk (q := reg.pendingOf ∘ _) ?_ ?_ fun v => ⟨rfl, rfl⟩,
      hvalues, List.nil_append]
    · intro v hv t htype
      exact hproper.stored f hf.own t htype v (hf.name_eq ▸ List.mem_of_mem_latest hv)
    · intro hleaf
      rw [hvalues, List.nil_append]
      exact Nat.le_trans (List.length_latest_le _ _)
        (h.classified.length_leafValues_le hr hh ht hc hleaf)
  · have hinner : child.kind.isLeafLike = false := by simpa using hk
    rw [if_neg hk, if_neg hk, memberContent, List.latest_map, List.map_map, restoredIn,
      if_neg hchoice]
    rw [foldlM_assign_objects hf hinner hchoice (b := fun x => reg.restored x child) ?_ ?_
      (fun x hx => ⟨rfl, hread hinner x (List.mem_of_mem_latest hx)⟩), hobjects, List.nil_append]
    · intro x hx
      rw [type_restored]
      exact (ht.part (.field (field_mem_slots_iff.2 ⟨hc, hchoice⟩) hinner
        (List.mem_of_mem_latest hx))).here.1
    · intro hlist
      rw [hobjects, List.length_nil, Nat.zero_add]
      exact Nat.le_trans (List.length_latest_le _ _) (h.classified.length_objects_le hr hh ht hc hlist)

/-- The data nodes of several children fill their fields, one after the other. -/
theorem Described.foldlM_assign_fields (ht : reg.Typed o r)
    (hread : ∀ c ∈ r.declared, c.kind ≠ .choice → c.kind.isLeafLike = false →
      ∀ x ∈ o.objects c.name, reg.readObject (reg.objectNode x c) c = .ok (reg.restored x c))
    {cs : List Ref} (hcs : ∀ c ∈ cs, c ∈ r.declared ∧ c.kind ≠ .choice)
    (hnodup : (cs.map Ref.name).Nodup) {leaves members : List String}
    (hleaves : ∀ c ∈ cs, c.name ∉ leaves) (hmembers : ∀ c ∈ cs, c.name ∉ members)
    {augmentations anydata : List Object} :
    (cs.flatMap fun c => (reg.keptOf o r (.field c)).map reg.pendingOf).foldlM assign
        (o.type.make (restrict (fun name => (o.leafValues name).latest id) leaves)
          (restrict (reg.restoredObjects o r) members) augmentations anydata) =
      .ok (o.type.make
        (restrict (fun name => (o.leafValues name).latest id)
          (leaves ++ (cs.filter fun c => c.kind.isLeafLike).map Ref.name))
        (restrict (reg.restoredObjects o r)
          (members ++ (cs.filter fun c => !c.kind.isLeafLike).map Ref.name))
        augmentations anydata) := by
  -- By induction on the children; the names of those done so far are kept apart from the rest.
  induction cs generalizing leaves members with
  | nil => simp [pure, Except.pure]
  | cons c cs ih =>
    obtain ⟨hc, hchoice⟩ := hcs c List.mem_cons_self
    obtain ⟨hnotMem, hnodup⟩ := List.nodup_cons.1 hnodup
    have hrest : ∀ d ∈ cs, d ∈ r.declared ∧ d.kind ≠ .choice :=
      fun d hd => hcs d (List.mem_cons_of_mem _ hd)
    have hleaves' : ∀ d ∈ cs, d.name ∉ leaves := fun d hd => hleaves d (List.mem_cons_of_mem _ hd)
    have hmembers' : ∀ d ∈ cs, d.name ∉ members :=
      fun d hd => hmembers d (List.mem_cons_of_mem _ hd)
    have hne : ∀ d ∈ cs, d.name ≠ c.name := fun d hd hname =>
      hnotMem (hname ▸ List.mem_map_of_mem hd)
    rw [List.flatMap_cons, List.foldlM_append, h.foldlM_assign_field hr hh ht hc hchoice
      (hread c hc hchoice) (restrict_of_notMem (hleaves c List.mem_cons_self))
      (restrict_of_notMem (hmembers c List.mem_cons_self))]
    simp only [bind, Except.bind]
    by_cases hk : c.kind.isLeafLike = true
    · rw [if_pos hk, update_restrict (fun name => (o.leafValues name).latest id),
        ih hrest hnodup (by
          intro d hd
          simpa [hne d hd] using hleaves' d hd) hmembers']
      simp [hk]
    · rw [if_neg hk, ← h.restoredObjects_eq hr hc, update_restrict,
        ih hrest hnodup hleaves' (by
          intro d hd
          simpa [hne d hd] using hmembers' d hd)]
      simp [hk]

end Described

/-! ### Layers -/

/-- The layer of a slot with the object behind it, if anything shows there. -/
def group? (reg : Registry) : Slot → Option (Layer × Object)
  | .layer l x => if (reg.content x l.node).isEmpty then none else some (l, x)
  | _ => none

/-- Something shows behind a layer exactly if something comes back behind it. -/
theorem group?_layer :
    reg.group? (.layer l x) = (reg.restoredBehind l.node x).map fun _ => (l, x) := by
  rw [group?, restoredBehind]
  split <;> rfl

/-- The layers that the content of a slot passes next. -/
def layersOf (reg : Registry) (o : Object) (r : Ref) (slot : Slot) : List Layer :=
  (reg.keptOf o r slot).filterMap fun p => p.place.layers.head?

theorem keptOf_layer : reg.keptOf o r (.layer l x) = (reg.kept x l.node).map fun p => p.under l := by
  rw [keptOf, slotContent, List.latest_map]
  rfl

theorem layersOf_layer : reg.layersOf o r (.layer l x) =
    List.replicate (reg.kept x l.node).length l := by
  rw [layersOf, keptOf_layer, List.filterMap_map]
  induction reg.kept x l.node with
  | nil => rfl
  | cons p ps ih =>
    rw [List.length_cons, List.replicate_succ, ← ih]
    rfl

theorem layersOf_field : reg.layersOf o r (.field child) = [] := by
  rw [layersOf, List.filterMap_eq_nil_iff]
  intro p hp
  rw [place_of_mem_field (List.mem_of_mem_latest hp)]
  rfl

theorem layersOf_payloads : reg.layersOf o r .payloads = [] := by
  rw [layersOf, List.filterMap_eq_nil_iff]
  intro p hp
  obtain ⟨y, -, s, -, rfl⟩ := mem_payloadContent_iff.1 (List.mem_of_mem_latest hp)
  rfl

/-- A layer that is passed many times counts once. -/
theorem distinct_replicate_append {n : Nat} {ls : List Layer}
    (h : ∀ l' ∈ ls, (l == l') = false) :
    distinct (List.replicate (n + 1) l ++ ls) = l :: distinct ls := by
  have hfilter : (distinct ls).filter (fun l' => !(l == l')) = distinct ls :=
    List.filter_eq_self.2 fun l' hl' => by simp [h l' (mem_of_mem_distinct hl')]
  induction n with
  | zero =>
    change l :: (distinct ls).filter _ = _
    rw [hfilter]
  | succ n ih =>
    rw [List.replicate_succ, List.cons_append, distinct, ih, List.filter_cons, beq_self]
    simp [hfilter]

section Described

variable (h : reg.Described m) (hr : r.model = m)
include h hr

omit h in
/-- Layers of different slots are different. -/
theorem origin_eq_of_beq (hl : .layer l x ∈ reg.slots o r)
    (hl' : .layer l' y ∈ reg.slots o r) (heq : (l == l') = true) :
    (Slot.layer l x).origin? = (Slot.layer l' y).origin? := by
  -- What a layer is called after is a node of the model.
  have hmodel {l : Layer} {x : Object} (hl : .layer l x ∈ reg.slots o r) {c : Ref}
      (hc : (Slot.layer l x).origin? = some c) : c.model = m := by
    cases l with
    | case choice s =>
      cases hc
      have hd := (case_mem_slots_iff.1 hl).1
      exact (Ref.model_of_mem_children (List.mem_filter.1 hd).1).trans hr
    | augment augment =>
      cases hc
      exact (Ref.model_of_mem_augments (augment_mem_slots_iff.1 hl).1).trans hr
  cases l with
  | augment a =>
    cases l' with
    | augment b =>
      have hab : (a == b) = true := heq
      rw [Ref.beq_ref_iff ((hmodel hl rfl).trans (hmodel hl' rfl).symm)] at hab
      rw [hab]
      rfl
    | case c s => cases heq
  | case c s =>
    cases l' with
    | augment b => cases heq
    | case d t =>
      have hcd : (c == d && s == t) = true := heq
      rw [Bool.and_eq_true, Ref.beq_ref_iff ((hmodel hl rfl).trans (hmodel hl' rfl).symm)] at hcd
      rw [hcd.1]
      rfl

/-- The layers that the content of an object passes next are those that anything shows behind. -/
theorem Described.distinct_layers (hh : HoldsObjects r) (ht : reg.Typed o r) :
    distinct ((reg.slots o r).flatMap (reg.layersOf o r)) =
      ((reg.slots o r).filterMap reg.group?).map Prod.fst := by
  have horigins := List.pairwise_map.1 (h.classified.nodup_origins hr hh ht)
  -- By induction on the slots, whose layers are pairwise different.
  have hall : ∀ ss : List Slot, (∀ slot ∈ ss, slot ∈ reg.slots o r) →
      ss.Pairwise (fun s t => s.origin? ≠ t.origin?) →
      distinct (ss.flatMap (reg.layersOf o r)) = (ss.filterMap reg.group?).map Prod.fst := by
    intro ss
    induction ss with
    | nil => exact fun _ _ => rfl
    | cons slot ss ih =>
      intro hmem hpair
      obtain ⟨hslot, hpair⟩ := List.pairwise_cons.1 hpair
      have ih := ih (fun s hs => hmem s (List.mem_cons_of_mem _ hs)) hpair
      rw [List.flatMap_cons]
      cases slot with
      | field c =>
        rw [layersOf_field, List.nil_append, ih]
        rfl
      | payloads =>
        rw [layersOf_payloads, List.nil_append, ih]
        rfl
      | layer l x =>
        rw [layersOf_layer]
        have hrest : ∀ l' ∈ ss.flatMap (reg.layersOf o r), (l == l') = false := by
          intro l' hl'
          obtain ⟨slot', hslot', hl'⟩ := List.mem_flatMap.1 hl'
          cases slot' with
          | field c => rw [layersOf_field] at hl'; cases hl'
          | payloads => rw [layersOf_payloads] at hl'; cases hl'
          | layer l'' y =>
            rw [layersOf_layer] at hl'
            obtain rfl := List.eq_of_mem_replicate hl'
            by_contra hbeq
            exact hslot _ hslot' (origin_eq_of_beq hr (hmem _ List.mem_cons_self)
              (hmem _ (List.mem_cons_of_mem _ hslot')) (by simpa using hbeq))
        by_cases hempty : reg.content x l.node = []
        · rw [kept, hempty]
          simpa [group?, hempty] using ih
        · obtain ⟨n, hn⟩ : ∃ n, (reg.kept x l.node).length = n + 1 :=
            Nat.exists_eq_succ_of_ne_zero fun hzero =>
              hempty (List.latest_eq_nil_iff.1 (List.eq_nil_of_length_eq_zero hzero))
          rw [hn, distinct_replicate_append hrest, ih]
          simp [group?, hempty]
  exact hall _ (fun _ hs => hs) horigins

/-- Behind a layer, what is left of the content there waits to be stored. -/
theorem Described.behind_pending (hh : HoldsObjects r) (ht : reg.Typed o r)
    (hs : reg.Throughout reg.Selects o r) (hslot : .layer l x ∈ reg.slots o r) :
    behind l ((reg.kept o r).map reg.pendingOf) = (reg.kept x l.node).map reg.pendingOf := by
  have horigins := h.classified.nodup_origins hr hh ht
  have hown : behind l ((reg.keptOf o r (.layer l x)).map reg.pendingOf) =
      (reg.kept x l.node).map reg.pendingOf := by
    rw [keptOf_layer, behind, List.filter_eq_self.2, List.map_map, List.map_map]
    · rfl
    · intro c hc
      simp only [List.map_map, List.mem_map] at hc
      obtain ⟨p, -, rfl⟩ := hc
      exact beq_self l
  -- No other slot has anything behind this layer.
  have hother : ∀ slot ∈ reg.slots o r, slot ≠ .layer l x →
      behind l ((reg.keptOf o r slot).map reg.pendingOf) = [] := by
    intro slot hslot' hne
    rw [behind, List.map_eq_nil_iff, List.filter_eq_nil_iff]
    intro c hc hnext
    obtain ⟨p, hp, rfl⟩ := List.mem_map.1 hc
    have hp := List.mem_of_mem_latest hp
    cases slot with
    | field child =>
      rw [pendingOf, place_of_mem_field hp] at hnext
      cases hnext
    | payloads =>
      obtain ⟨y, -, s, -, rfl⟩ := mem_payloadContent_iff.1 hp
      cases hnext
    | layer l' y =>
      obtain ⟨q, -, rfl⟩ := List.mem_map.1 hp
      apply hne
      exact List.eq_of_nodup_map horigins hslot' hslot
        (origin_eq_of_beq hr hslot hslot' hnext).symm
  rw [h.kept_eq hr hh ht hs, behind, List.map_flatMap, List.filter_flatMap, List.map_flatMap]
  exact (List.flatMap_eq_of_unique (List.Nodup.of_map _ horigins) hslot hother).trans hown

/-- The data nodes that pass no layer are those of the fields. -/
theorem Described.filter_pending (hh : HoldsObjects r) (ht : reg.Typed o r)
    (hs : reg.Throughout reg.Selects o r) (hk : r.kind ≠ .anydata) :
    (((reg.kept o r).map reg.pendingOf).filter fun c => c.layers.isEmpty) =
      (r.declared.filter fun c => c.kind != .choice).flatMap fun c =>
        (reg.keptOf o r (.field c)).map reg.pendingOf := by
  -- What is behind a layer passes that layer, what is in a field passes none.
  have hlayer {l : Layer} {x : Object} :
      (((reg.keptOf o r (.layer l x)).map reg.pendingOf).filter fun c => c.layers.isEmpty) = [] := by
    rw [List.filter_eq_nil_iff, keptOf_layer, List.map_map]
    intro c hc
    obtain ⟨p, -, rfl⟩ := List.mem_map.1 hc
    exact Bool.false_ne_true
  have hfield {c : Ref} :
      (((reg.keptOf o r (.field c)).map reg.pendingOf).filter fun c => c.layers.isEmpty) =
        (reg.keptOf o r (.field c)).map reg.pendingOf := by
    rw [List.filter_eq_self]
    intro d hd
    obtain ⟨p, hp, rfl⟩ := List.mem_map.1 hd
    rw [pendingOf, place_of_mem_field (List.mem_of_mem_latest hp)]
    rfl
  rw [h.kept_eq hr hh ht hs, List.map_flatMap, List.filter_flatMap, slots, if_neg hk,
    List.append_nil, List.flatMap_append, List.flatMap_assoc, List.flatMap_filter_eq]
  have haugments : (augmentSlots o r).flatMap (fun slot =>
      ((reg.keptOf o r slot).map reg.pendingOf).filter fun c => c.layers.isEmpty) = [] := by
    rw [List.flatMap_eq_nil_iff]
    intro slot hslot
    obtain ⟨_, -, _, -, _, -, rfl⟩ := mem_augmentSlots_iff.1 hslot
    exact hlayer
  rw [haugments, List.append_nil]
  refine List.flatMap_congr fun c _ => ?_
  by_cases hchoice : c.kind = .choice
  · rw [slotsOf, if_pos hchoice, hchoice, if_neg (by simp), List.flatMap_eq_nil_iff]
    intro slot hslot
    obtain ⟨y, -, hy⟩ := List.mem_filterMap.1 hslot
    obtain ⟨s, -, rfl⟩ := Option.map_eq_some_iff.1 hy
    exact hlayer
  · rw [slotsOf, if_neg hchoice, List.flatMap_singleton, hfield, if_pos (by simpa using hchoice)]

/-- The layers that the data nodes of an object pass next. -/
theorem Described.nextLayers_pending (hh : HoldsObjects r) (ht : reg.Typed o r)
    (hs : reg.Throughout reg.Selects o r) :
    nextLayers ((reg.kept o r).map reg.pendingOf) =
      ((reg.slots o r).filterMap reg.group?).map Prod.fst := by
  rw [← h.distinct_layers hr hh ht, nextLayers, h.kept_eq hr hh ht hs, List.map_flatMap,
    List.filterMap_flatMap]
  refine congrArg distinct (List.flatMap_congr fun slot _ => ?_)
  rw [List.filterMap_map, layersOf]
  rfl

end Described

/-! ### Filling an object -/

/-- What is found behind a layer is stored on an object of its own. -/
def storeBehind (reg : Registry) (children : List Pending) (target : Object) (layer : Layer) :
    Result Object := do
  let content ← reg.instantiate layer.node
  let content ← reg.fill (behind layer children) content
  match layer with
  | .augment _ => pure (target.addAugmentation content)
  | .case choice _ => do
    let field ← Result.found (.noChoiceField target.className choice.name)
      ((target.type.field? choice.name).filter fun f => f.type == .choice)
    Result.ofField (field.setCase content target)

/-- First the fields are filled, then what is behind each layer is stored. -/
theorem fill_eq (reg : Registry) (children : List Pending) (target : Object) :
    reg.fill children target =
      (children.filter fun c => c.layers.isEmpty).foldlM assign target >>= fun target =>
        (nextLayers children).foldlM (reg.storeBehind children) target := by
  rw [fill]
  refine congrArg _ (funext fun target => ?_)
  rw [List.foldlM_subtype (g := reg.storeBehind children) (fun _ _ _ => rfl), List.unattach_attach]

section Store

variable {values : String → List LeafValue} {objects : String → List Object}
  {augmentations anydata : List Object} {children : List Pending}

theorem instantiate_eq (h : reg.classOf? r = some type) : reg.instantiate r = .ok type.new := by
  rw [instantiate, h]
  rfl

theorem storeBehind_augment (hc : reg.classOf? augment = some x.type)
    (hx : reg.fill (behind (.augment augment) children) x.type.new = .ok y)
    (hnew : y.className ∉ augmentations.map Object.className) :
    reg.storeBehind children (type.make values objects augmentations anydata) (.augment augment) =
      .ok (type.make values objects (augmentations ++ [y]) anydata) := by
  have hadd : (type.make values objects augmentations anydata).addAugmentation y =
      type.make values objects (augmentations ++ [y]) anydata := by
    rw [Class.make, Object.addAugmentation, Object.insertAugmentation_eq,
      List.upsert_of_notMem hnew, Class.make]
  rw [← hadd, storeBehind]
  simp only [Layer.node, instantiate_eq hc, hx, bind, Except.bind, pure, Except.pure]

theorem storeBehind_case {choice : Ref} (hf : reg.FieldFor type choice f)
    (hk : choice.kind = .choice) (hc : reg.classOf? s = some x.type)
    (hx : reg.fill (behind (.case choice s) children) x.type.new = .ok y) :
    reg.storeBehind children (type.make values objects augmentations anydata) (.case choice s) =
      .ok (type.make values (Function.update objects choice.name [y]) augmentations anydata) := by
  have htarget : f.checkTarget (type.make values objects augmentations anydata) = .ok () :=
    hf.checkTarget_eq (Class.type_make ..)
  have htype : f.type = .choice := by
    have hsuits := hf.suits
    rw [hk] at hsuits
    cases hft : f.type <;> simp_all [FieldType.suits, Kind.isSingleObject]
  have hfield : (type.field? choice.name).filter (fun f => f.type == .choice) = some f := by
    simp [hf.field?_eq, htype]
  rw [storeBehind]
  simp only [Layer.node, instantiate_eq hc, hx, bind, Except.bind, Class.type_make, hfield,
    Result.found, Field.setCase, htarget, pure, Except.pure, Result.ofField,
    Class.updateMember_make, hf.name_eq]

end Store

/-- What a case or augmentation of an object holds is what comes back when its data is read. -/
def Refills (reg : Registry) (o : Object) (r : Ref) (children : List Pending) : Prop :=
  ∀ l x, .layer l x ∈ reg.slots o r → reg.classOf? l.node = some x.type ∧
    reg.fill (behind l children) x.type.new = .ok (reg.restored x l.node)

section Described

variable (h : reg.Described m) (hr : r.model = m) (hh : HoldsObjects r)
include h hr hh

/-- A choice has at most one case that shows, and just that comes back. -/
theorem Described.group_of_choice (ht : reg.Typed o r) (hc : child ∈ r.declared)
    (hk : child.kind = .choice) :
    ((reg.slotsOf o child).filterMap reg.group? = [] ∧ reg.restoredIn o child = []) ∨
      ∃ x s, .layer (.case child s) x ∈ reg.slots o r ∧
        (reg.slotsOf o child).filterMap reg.group? = [(.case child s, x)] ∧
        reg.restoredIn o child = [reg.restored x s] := by
  have hle := h.classified.length_objects_le hr hh ht hc (by simp [hk])
  rw [slotsOf, if_pos hk, restoredIn, if_pos hk]
  rcases hobjects : o.objects child.name with _ | ⟨x, _ | ⟨y, rest⟩⟩
  · exact .inl ⟨rfl, rfl⟩
  · cases hnode : reg.nodeOfClass? x.className with
    | none => simp [hnode]
    | some s =>
      cases hback : reg.restoredBehind s x with
      | none => simp [hnode, group?_layer, Layer.node, hback]
      | some y =>
        obtain ⟨-, rfl⟩ := restoredBehind_eq_some_iff.1 hback
        refine .inr ⟨x, s, ?_, ?_, ?_⟩
        · exact case_mem_slots_iff.2 ⟨hc, hk, by simp [hobjects], hnode⟩
        · simp [hnode, group?_layer, Layer.node, hback]
        · simp [hnode, hback]
  · simp [hobjects] at hle

/-- The cases of the choices are stored, one after the other. -/
theorem Described.foldlM_storeBehind_cases (ht : reg.Typed o r) {children : List Pending}
    (hfill : reg.Refills o r children) {cs : List Ref} (hcs : ∀ c ∈ cs, c ∈ r.declared)
    (hnodup : (cs.map Ref.name).Nodup) {members : List String}
    (hmembers : ∀ c ∈ cs, c.kind = .choice → c.name ∉ members) {values : String → List LeafValue}
    {augmentations anydata : List Object} :
    (((cs.flatMap (reg.slotsOf o)).filterMap reg.group?).map Prod.fst).foldlM
        (reg.storeBehind children)
        (o.type.make values (restrict (reg.restoredObjects o r) members) augmentations anydata) =
      .ok (o.type.make values (restrict (reg.restoredObjects o r)
        (members ++ (cs.filter fun c => c.kind == .choice).map Ref.name)) augmentations
        anydata) := by
  induction cs generalizing members with
  | nil => simp [pure, Except.pure]
  | cons c cs ih =>
    have hc := hcs c List.mem_cons_self
    obtain ⟨hnotMem, hnodup⟩ := List.nodup_cons.1 hnodup
    have hrest : ∀ d ∈ cs, d ∈ r.declared := fun d hd => hcs d (List.mem_cons_of_mem _ hd)
    have hmembers' : ∀ d ∈ cs, d.kind = .choice → d.name ∉ members :=
      fun d hd => hmembers d (List.mem_cons_of_mem _ hd)
    rw [List.flatMap_cons, List.filterMap_append, List.map_append, List.foldlM_append]
    by_cases hk : c.kind = .choice
    · have hmembers' : ∀ d ∈ cs, d.kind = .choice → d.name ∉ members ++ [c.name] := by
        intro d hd hdk hmem
        rcases List.mem_append.1 hmem with hmem | hmem
        · exact hmembers' d hd hdk hmem
        · exact hnotMem (List.mem_singleton.1 hmem ▸ List.mem_map_of_mem hd)
      -- Whether or not the choice shows, the fold arrives at what comes back for it.
      have hstep : (((reg.slotsOf o c).filterMap reg.group?).map Prod.fst).foldlM
          (reg.storeBehind children) (o.type.make values (restrict (reg.restoredObjects o r) members)
            augmentations anydata) =
          .ok (o.type.make values (restrict (reg.restoredObjects o r) (members ++ [c.name]))
            augmentations anydata) := by
        rw [← update_restrict, h.restoredObjects_eq hr hc]
        rcases h.group_of_choice hr hh ht hc hk with ⟨hnone, hback⟩ | ⟨x, s, hslot, hone, hback⟩
        · have hsame : Function.update (restrict (reg.restoredObjects o r) members) c.name [] =
              restrict (reg.restoredObjects o r) members :=
            Function.update_eq_self_iff.2 (restrict_of_notMem (hmembers c List.mem_cons_self hk)).symm
          rw [hnone, hback, hsame]
          rfl
        · obtain ⟨f, hf⟩ := h.classified.exists_field hr hh ht.here.1 hc
          obtain ⟨hclass, hx⟩ : reg.classOf? s = some x.type ∧ _ := hfill _ _ hslot
          rw [hone, hback, List.map_singleton, List.foldlM_cons, storeBehind_case hf hk hclass hx]
          rfl
      rw [hstep]
      change List.foldlM _ _ _ = _
      rw [ih hrest hnodup hmembers']
      simp [hk]
    · rw [slotsOf, if_neg hk]
      change List.foldlM _ _ _ = _
      rw [ih hrest hnodup hmembers']
      simp [hk]

omit h hr hh in
/-- The augmentations are stored, one after the other. -/
theorem foldlM_storeBehind_augments {children : List Pending} (hfill : reg.Refills o r children)
    {as : List Ref} (has : ∀ a ∈ as, a ∈ r.augments) {values : String → List LeafValue}
    {objects : String → List Object} {augmentations anydata : List Object}
    (hnodup : ((augmentations ++ as.filterMap fun a =>
      (a.className.bind o.augmentation?).bind (reg.restoredBehind a)).map Object.className).Nodup) :
    (((as.filterMap fun a => (a.className.bind o.augmentation?).map fun x =>
        Slot.layer (.augment a) x).filterMap reg.group?).map Prod.fst).foldlM
        (reg.storeBehind children) (type.make values objects augmentations anydata) =
      .ok (type.make values objects (augmentations ++ as.filterMap fun a =>
        (a.className.bind o.augmentation?).bind (reg.restoredBehind a)) anydata) := by
  induction as generalizing augmentations with
  | nil => simp [pure, Except.pure]
  | cons a as ih =>
    have ha := has a List.mem_cons_self
    have hrest : ∀ b ∈ as, b ∈ r.augments := fun b hb => has b (List.mem_cons_of_mem _ hb)
    rw [List.filterMap_cons] at hnodup
    rw [List.filterMap_cons, List.filterMap_cons]
    cases hx : a.className.bind o.augmentation? with
    | none =>
      rw [hx] at hnodup
      exact ih hrest hnodup
    | some x =>
      rw [hx] at hnodup
      cases hback : reg.restoredBehind a x with
      | none =>
        rw [Option.bind_some, hback] at hnodup
        simp only [Option.map_some, Option.bind_some, List.filterMap_cons, group?_layer, Layer.node,
          hback, Option.map_none]
        exact ih hrest hnodup
      | some y =>
        obtain ⟨-, rfl⟩ := restoredBehind_eq_some_iff.1 hback
        have hslot : .layer (.augment a) x ∈ reg.slots o r := augment_mem_slots_iff.2 ⟨ha, hx⟩
        obtain ⟨hclass, hrefill⟩ : reg.classOf? a = some x.type ∧ _ := hfill _ _ hslot
        simp only [Option.bind_some, hback] at hnodup
        simp only [Option.map_some, Option.bind_some, List.filterMap_cons, group?_layer, Layer.node,
          hback, List.map_cons, List.foldlM_cons]
        -- Its class is new, so that it replaces none of the augmentations before.
        have hnew : (reg.restored x a).className ∉ augmentations.map Object.className := by
          rw [List.map_append, List.map_cons] at hnodup
          intro hmem
          exact List.disjoint_of_nodup_append hnodup hmem List.mem_cons_self
        rw [storeBehind_augment hclass hrefill hnew]
        change List.foldlM _ _ _ = _
        rw [List.append_cons] at hnodup
        have hlater := ih hrest hnodup
        rwa [← List.append_cons] at hlater

/-- An object is filled with its data, in case that all objects inside are read back. -/
theorem Described.fill_pending (ht : reg.Typed o r) (hs : reg.Throughout reg.Selects o r)
    (hk : r.kind ≠ .anydata)
    (hread : ∀ c ∈ r.declared, c.kind ≠ .choice → c.kind.isLeafLike = false →
      ∀ x ∈ o.objects c.name, reg.readObject (reg.objectNode x c) c = .ok (reg.restored x c))
    (hfill : reg.Refills o r ((reg.kept o r).map reg.pendingOf)) :
    reg.fill ((reg.kept o r).map reg.pendingOf) o.type.new = .ok (reg.restored o r) := by
  have hnodup := h.nodup_declared r (Ref.mem_refs_iff.2 hr)
  have hfields : (((reg.kept o r).map reg.pendingOf).filter fun c => c.layers.isEmpty).foldlM assign
      o.type.new = .ok (o.type.make
        (restrict (fun name => (o.leafValues name).latest id)
          (((r.declared.filter fun c => c.kind != .choice).filter fun c =>
            c.kind.isLeafLike).map Ref.name))
        (restrict (reg.restoredObjects o r)
          (((r.declared.filter fun c => c.kind != .choice).filter fun c =>
            !c.kind.isLeafLike).map Ref.name)) [] []) := by
    have hcs : ∀ c ∈ r.declared.filter fun c => c.kind != .choice,
        c ∈ r.declared ∧ c.kind ≠ .choice := by simp
    have hnone : ∀ c ∈ r.declared.filter fun c => c.kind != .choice, c.name ∉ [] := by simp
    rw [h.filter_pending hr hh ht hs hk, Class.new_eq_make]
    exact h.foldlM_assign_fields hr hh ht hread hcs (hnodup.sublist (List.filter_sublist.map _))
      hnone hnone
  rw [fill_eq, hfields, h.nextLayers_pending hr hh ht hs, slots, if_neg hk, List.append_nil,
    List.filterMap_append, List.map_append]
  change List.foldlM _ _ _ = _
  rw [List.foldlM_append, h.foldlM_storeBehind_cases hr hh ht hfill (fun _ hc => hc) hnodup ?_]
  · change List.foldlM _ _ _ = _
    have hclasses : (([] ++ reg.restoredAugmentations o r).map Object.className).Nodup := by
      rw [List.nil_append, ← augmentations_restored]
      exact (h.proper_restored hr hh ht).nodup_classes
    rw [augmentSlots, foldlM_storeBehind_augments hfill (fun _ ha => ha) hclasses]
    refine congrArg Except.ok ?_
    rw [restored_eq, restoredAnydata, if_neg hk, restoredAugmentations]
    apply Class.make_congr
    -- Every field that holds values has been filled.
    · intro name hname
      obtain ⟨c, hc, rfl, hleaf⟩ := h.classified.mem_valueNames hr hh ht.here.1 hname
      refine if_pos (List.mem_map_of_mem (List.mem_filter.2 ⟨List.mem_filter.2 ⟨hc, ?_⟩, hleaf⟩))
      cases hkind : c.kind <;> simp_all [Kind.isLeafLike]
    -- And so has every field that holds objects, be it for a choice or not.
    · intro name hname
      obtain ⟨c, hc, rfl, hinner⟩ := h.classified.mem_objectNames hr hh ht.here.1 hname
      refine if_pos (List.mem_append.2 ?_)
      by_cases hchoice : c.kind = .choice
      · exact .inr (List.mem_map_of_mem (List.mem_filter.2 ⟨hc, by simp [hchoice]⟩))
      · exact .inl (List.mem_map_of_mem
          (List.mem_filter.2 ⟨List.mem_filter.2 ⟨hc, by simp [hchoice]⟩, by simp [hinner]⟩))
  · intro c hc hchoice hmem
    obtain ⟨d, hd, hname⟩ := List.mem_map.1 hmem
    obtain ⟨hd, hdk⟩ := List.mem_filter.1 (List.mem_filter.1 hd).1
    obtain rfl := List.eq_of_nodup_map hnodup hd hc hname
    simp [hchoice] at hdk

end Described

/-! ### Reading objects -/

theorem readObject_innerNode {nodes : List Node} (hc : reg.classOf? r = some type) :
    reg.readObject (innerNode r nodes) r =
      if r.kind = .anydata then reg.readPayloads r nodes type.new
      else reg.readChildren r nodes >>= fun pending => reg.fill pending type.new := by
  unfold innerNode
  split <;> rw [readObject, instantiate_eq hc] <;> rfl

/-- Children that are found again wait to be stored. -/
theorem readChildren_eq {ps : List Placed}
    (hps : ∀ p ∈ ps, reg.resolveNode (some r) p.data = .ok p.place) :
    reg.readChildren r (ps.map Placed.data) = .ok (ps.map reg.pendingOf) := by
  induction ps with
  | nil => rw [List.map_nil, readChildren, List.map_nil]
  | cons p ps ih =>
    rw [List.map_cons, readChildren, hps p List.mem_cons_self,
      ih fun q hq => hps q (List.mem_cons_of_mem _ hq)]
    rfl

/-- Payloads that are found again are attached in their order. -/
theorem readPayloads_eq {parts : List (Object × Ref)}
    (hfind : ∀ p ∈ parts, reg.resolveNode (some r) (reg.objectNode p.1 p.2) =
      .ok { node := p.2 })
    (hread : ∀ p ∈ parts, reg.readObject (reg.objectNode p.1 p.2) p.2 = .ok (reg.restored p.1 p.2))
    {values : String → List LeafValue} {objects : String → List Object}
    {augmentations anydata : List Object} :
    reg.readPayloads r (parts.map fun p => reg.objectNode p.1 p.2)
        (type.make values objects augmentations anydata) =
      .ok (type.make values objects augmentations
        (anydata ++ parts.map fun p => reg.restored p.1 p.2)) := by
  induction parts generalizing anydata with
  | nil => rw [List.map_nil, readPayloads, List.map_nil, List.append_nil]
  | cons p parts ih =>
    rw [List.map_cons, readPayloads, hfind p List.mem_cons_self]
    simp only [bind, Except.bind]
    rw [hread p List.mem_cons_self]
    change reg.readPayloads r _ (type.make values objects augmentations (anydata ++ [_])) = _
    rw [ih (fun q hq => hfind q (List.mem_cons_of_mem _ hq))
      (fun q hq => hread q (List.mem_cons_of_mem _ hq)), List.map_cons, List.append_assoc]
    rfl

section Described

variable (h : reg.Described m) (hr : r.model = m) (hh : HoldsObjects r)
include h hr hh

/-- The data nodes of an object are found again where they belong. -/
theorem Described.resolveNode_eq (hs : reg.Throughout reg.Selects o r) (hl : r.isLayer = false)
    (hp : p ∈ reg.content o r) : reg.resolveNode (some r) p.data = .ok p.place := by
  have hbelow := h.classified.mem_below_of_mem_content hr hh hs hp
  have hnodup := h.nodup_below r (Ref.mem_refs_iff.2 hr) hl hh.kind_ne_module
  have hchild := h.sole.childOf?_of_mem_below (by rintro _ ⟨⟩; exact hr) hnodup hbelow
  have hid := key_id_of_mem_content hp
  rw [resolveNode, Tree.NodeKey.name, Tree.NodeKey.ns, hid]
  exact congrArg (Result.found _) hchild

/-- The payloads of an anydata node are read as what comes back of them. -/
theorem Described.readObject_anydata (ht : reg.Typed o r) (hs : reg.Throughout reg.Selects o r)
    (hk : r.kind = .anydata)
    (hread : ∀ x ∈ o.anydata, ∀ s, reg.payloadOf? r x = some s →
      reg.readObject (reg.objectNode x s) s = .ok (reg.restored x s)) :
    reg.readObject (reg.objectNode o r) r = .ok (reg.restored o r) := by
  obtain ⟨hdeclared, haugments⟩ := h.classified.childless_of_anydata hr hk
  have hcontent : reg.content o r = reg.payloadContent o r := by
    rw [content_eq, h.classified.slots_of_anydata hr hk]
    exact List.flatMap_singleton ..
  have hkept : (reg.kept o r).map Placed.data =
      ((reg.payloadParts o r).latest fun p => (reg.objectNode p.1 p.2).key).map fun p =>
        reg.objectNode p.1 p.2 := by
    rw [kept, hcontent, payloadContent_eq, List.latest_map, List.map_map]
    rfl
  have hlayer : r.isLayer = false := by simp [Ref.isLayer_eq_false_iff, hk]
  have hpayload {q : Object × Ref}
      (hq : q ∈ (reg.payloadParts o r).latest fun p => (reg.objectNode p.1 p.2).key) :=
    mem_anydata_of_mem_payloadParts (List.mem_of_mem_latest hq)
  rw [objectNode_eq_kept, readObject_innerNode ht.here.1, hkept, if_pos hk, Class.new_eq_make,
    readPayloads_eq ?_ fun q hq => hread _ (hpayload hq).1 _ (hpayload hq).2, restored_eq,
    restoredAnydata, if_pos hk, restoredAugmentations, haugments]
  · -- An anydata node declares nothing that a field could hold.
    refine congrArg Except.ok (Class.make_congr ?_ ?_)
    · intro name hname
      obtain ⟨c, hc, -⟩ := h.classified.mem_valueNames hr hh ht.here.1 hname
      rw [hdeclared] at hc
      cases hc
    · intro name hname
      obtain ⟨c, hc, -⟩ := h.classified.mem_objectNames hr hh ht.here.1 hname
      rw [hdeclared] at hc
      cases hc
  · intro q hq
    apply h.resolveNode_eq hr hh hs hlayer (p := { place := { node := q.2 }, data := _ })
    rw [hcontent, mem_payloadContent_iff]
    exact ⟨_, (hpayload hq).1, _, (hpayload hq).2, rfl⟩

/-- Data of an object is stored, and is read in case that it stands for itself, as what comes back of
the object. -/
theorem Described.refill (ht : reg.Typed o r) (hs : reg.Throughout reg.Selects o r) :
    (r.kind ≠ .anydata →
      reg.fill ((reg.kept o r).map reg.pendingOf) o.type.new = .ok (reg.restored o r)) ∧
    (r.isLayer = false → reg.readObject (reg.objectNode o r) r = .ok (reg.restored o r)) := by
  -- By induction on the size of the object: what is inside is read first.
  induction hn : sizeOf o using Nat.strongRecOn generalizing o r with
  | ind n ih =>
    have hpart {x : Object} {s : Ref} (hp : reg.Part o r x s) :=
      have ⟨hsm, hsh⟩ := h.classified.holdsObjects_of_part hr hh hs.here hp
      ih _ (hn ▸ hp.sizeOf_lt) hsm hsh (ht.part hp) (hs.part hp) rfl
    have hfill (hk : r.kind ≠ .anydata) :
        reg.fill ((reg.kept o r).map reg.pendingOf) o.type.new = .ok (reg.restored o r) := by
      apply h.fill_pending hr hh ht hs hk
      · intro c hc hchoice hinner x hx
        exact (hpart (.field (field_mem_slots_iff.2 ⟨hc, hchoice⟩) hinner hx)).2
          (h.classified.isLayer_eq_false hr hh hc hchoice)
      · intro l x hslot
        have hp : reg.Part o r x l.node := .layer hslot
        have hl := Ref.isLayer_of_mem_layers (hr.symm ▸ h.sole.linked) (hs.here.mem_layers hslot)
        rw [h.behind_pending hr hh ht hs hslot]
        refine ⟨(ht.part hp).here.1, (hpart hp).1 ?_⟩
        intro hany
        simp [Ref.isLayer_iff, hany] at hl
    refine ⟨hfill, fun hl => ?_⟩
    by_cases hk : r.kind = .anydata
    · apply h.readObject_anydata hr hh ht hs hk
      intro x hx s hnode
      have hp : reg.Part o r x s := .payload (payloads_mem_slots_iff.2 hk) hx hnode
      apply (hpart hp).2
      have := h.payload_kind r (Ref.mem_refs_iff.2 hr) hk s (mem_payloads_of_payloadOf? hnode)
      rcases this with hs | hs | hs | hs <;> simp [Ref.isLayer_eq_false_iff, hs]
    · rw [objectNode_eq_kept, readObject_innerNode ht.here.1, if_neg hk, readChildren_eq]
      · exact hfill hk
      · intro p hp
        exact h.resolveNode_eq hr hh hs hl (List.mem_of_mem_latest hp)

/-- The data of an object is read as what comes back of the object. -/
theorem Described.readObject_objectNode (ht : reg.Typed o r) (hs : reg.Throughout reg.Selects o r)
    (hl : r.isLayer = false) :
    reg.readObject (reg.objectNode o r) r = .ok (reg.restored o r) :=
  (h.refill hr hh ht hs).2 hl

end Described

end Registry

end YangBinding
