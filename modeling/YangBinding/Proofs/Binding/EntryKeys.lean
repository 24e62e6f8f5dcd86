import YangBinding.Proofs.Binding.Storing
import YangBinding.Proofs.Binding.Waypoints

/-!
# Keys of entries in object ids

The key of a list entry in an object id starts with the defaults of all its leaves, and is filled
with whatever key leaves the resource id happens to carry. So a resource id of an entry may leave out
a key or repeat it: the default stands for what is missing, and of what is repeated the last counts.
Where equal object ids come from resource ids that carry every key once, the keys agree.

## Main definitions

* `KeyField.given` — what a leaf of a key holds in the end
* `Registry.KeysHeld` — the key class of a list has a field for each of its keys

## Main results

* `Registry.lookup_of_entryKey` — a key holds what the key leaves of the entry give
* `Registry.forall₂_steps_of_beq` — equal object ids have equal steps at every node
* `Registry.given_of_beq` — the keys of entries with the same object id
-/

namespace List

variable {α : Type} [BEq α] {xs ys : List (Option α)}

/-- If gaps are at the same places, then sequences that are equal without the gaps are equal. -/
theorem forall₂_of_reduceOption_beq (hgaps : xs.map Option.isSome = ys.map Option.isSome)
    (h : (xs.reduceOption == ys.reduceOption) = true) : Forall₂ (fun a b => (a == b) = true) xs ys := by
  induction xs generalizing ys with
  | nil =>
    obtain rfl := map_eq_nil_iff.1 hgaps.symm
    exact .nil
  | cons a xs ih =>
    obtain ⟨b, ys, rfl, hb, htail⟩ := map_eq_cons_iff.1 hgaps.symm
    cases a with
    | none =>
      cases b with
      | none => exact .cons rfl (ih htail.symm h)
      | some b => cases hb
    | some a =>
      cases b with
      | none => cases hb
      | some b =>
        rw [reduceOption_cons_of_some, reduceOption_cons_of_some, cons_beq_cons,
          Bool.and_eq_true] at h
        exact .cons h.1 (ih htail.symm h.2)

end List

namespace YangBinding

open Schema (Ref)
open YangBinding.Tree (KeyLeaf NodeKey ResourceId)

/-- The value that the last key leaf of the name of a field gives to the field, if there is one. -/
def KeyField.given? (f : KeyField) (leaves : List KeyLeaf) : Option LeafValue :=
  (leaves.reverse.find? fun l => l.id.name == f.name).bind fun l => f.type.store? l.value

/-- What a leaf of a new key holds after the key leaves of an entry have been set. -/
def KeyField.given (f : KeyField) (leaves : List KeyLeaf) : LeafValue :=
  (f.given? leaves).getD f.type.default

namespace KeyField

variable {f : KeyField} {leaves : List KeyLeaf} {l : KeyLeaf}

theorem given?_concat (f : KeyField) (leaves : List KeyLeaf) (l : KeyLeaf) :
    f.given? (leaves ++ [l]) =
      if l.id.name = f.name then f.type.store? l.value else f.given? leaves := by
  rw [given?, List.reverse_append, List.reverse_singleton, List.singleton_append, List.find?_cons]
  by_cases hl : l.id.name = f.name
  · rw [beq_iff_eq.2 hl, if_pos hl, Option.bind_some]
  · rw [beq_eq_false_iff_ne.2 hl, if_neg hl]
    rfl

/-- A key leaf that is the only one of its name gives its value. -/
theorem given?_of_filter_eq (h : leaves.filter (fun l => l.id.name = f.name) = [l]) :
    f.given? leaves = f.type.store? l.value := by
  have hrev : (leaves.reverse.filter fun l => l.id.name == f.name) = [l] := by
    rw [List.filter_reverse]
    exact congrArg List.reverse h
  rw [given?, ← List.head?_filter, hrev]
  rfl

end KeyField

namespace Registry

variable {reg : Registry} {r list : Ref} {type : KeyClass} {k k₀ : Key} {leaves : List KeyLeaf}
  {f : KeyField}

/-- The key class of a list is built as the field macros do it, and has a field for each key that the
list declares. -/
def KeysHeld (reg : Registry) (list : Ref) : Prop :=
  ∀ type, (reg.classOf? list).bind Class.key = some type →
    type.Regular ∧ ∀ name ∈ list.keys, ∃ f ∈ type.leaves, f.name = name

/-- Whatever key leaves are set in a typed key, each finds its field and has a value for it, and each
field ends up with what they give to it. -/
theorem exists_of_foldlM_set (hregular : type.Regular) (hk₀ : k₀.Typed type)
    (hfold : leaves.foldlM (fun key (leaf : KeyLeaf) => do
      let field ← Result.found (.noKeyLeaf type.className leaf.id.name) (type.leaf? leaf.id.name)
      Result.ofField (Key.set key field leaf.value)) k₀ = Except.ok k) :
    k.Typed type ∧
      (∀ l ∈ leaves, ∃ f ∈ type.leaves, f.name = l.id.name ∧ (f.type.store? l.value).isSome) ∧
      ∀ f ∈ type.leaves, k.values.lookup f.name =
        (f.given? leaves).or (k₀.values.lookup f.name) := by
  -- By induction from the last leaf, which overrides what the ones before it have given.
  induction leaves using List.reverseRecOn generalizing k with
  | nil =>
    cases hfold
    exact ⟨hk₀, by simp, fun f _ => rfl⟩
  | append_singleton leaves l ih =>
    rw [List.foldlM_append] at hfold
    obtain ⟨k₁, hfold, hlast⟩ := Except.bind_eq_ok_iff.1 hfold
    obtain ⟨htyped, haccepted, hvalues⟩ := ih hfold
    obtain ⟨k', hlast, hnil⟩ := Except.bind_eq_ok_iff.1 hlast
    cases hnil
    obtain ⟨g, hg, hset⟩ := Except.bind_eq_ok_iff.1 hlast
    rw [found_eq_ok_iff] at hg
    have hmem : g ∈ type.leaves := List.mem_of_find?_eq_some hg
    have hname : g.name = l.id.name := by simpa using List.find?_some hg
    obtain ⟨htyped, s, hs, hlookup⟩ :=
      htyped.exists_of_set hregular hmem (ofField_eq_ok_iff.1 hset)
    refine ⟨htyped, ?_, fun f hf => ?_⟩
    · intro l' hl'
      rcases List.mem_append.1 hl' with hl' | hl'
      · exact haccepted l' hl'
      · obtain rfl := List.mem_singleton.1 hl'
        exact ⟨g, hmem, hname, by rw [hs]; rfl⟩
    · rw [hlookup, KeyField.given?_concat, hvalues f hf, ← hname]
      by_cases hfg : g.name = f.name
      · obtain rfl : g = f := List.eq_of_nodup_map hregular.nodup_names hmem hf hfg
        rw [if_pos rfl, if_pos rfl, hs, Option.some_or]
      · rw [if_neg (Ne.symm hfg), if_neg hfg]

/-- The key of an entry holds what the key leaves of the entry give, and defaults for the rest. -/
theorem lookup_of_entryKey (hregular : type.Regular)
    (htype : (reg.classOf? list).bind Class.key = some type)
    (hk : reg.entryKey list leaves = .ok k) :
    (∀ l ∈ leaves, ∃ f ∈ type.leaves, f.name = l.id.name ∧ (f.type.store? l.value).isSome) ∧
      ∀ f ∈ type.leaves, k.values.lookup f.name = some (f.given leaves) := by
  obtain ⟨type', htype', hfold⟩ := Except.bind_eq_ok_iff.1 hk
  obtain rfl : type = type' := Option.some.inj (htype.symm.trans (found_eq_ok_iff.1 htype'))
  obtain ⟨-, haccepted, hvalues⟩ := exists_of_foldlM_set hregular (Key.typed_new hregular) hfold
  refine ⟨haccepted, fun f hf => ?_⟩
  rw [hvalues f hf, hregular.lookup_new hf, KeyField.given]
  cases f.given? leaves <;> rfl

/-- A key leaf that is the only one of its name has its value in the key of the entry. -/
theorem store?_of_filter_eq {l : KeyLeaf} (hregular : type.Regular)
    (htype : (reg.classOf? list).bind Class.key = some type)
    (hk : reg.entryKey list leaves = .ok k) (hf : f ∈ type.leaves)
    (h : leaves.filter (fun l => l.id.name = f.name) = [l]) :
    f.type.store? l.value = some (f.given leaves) := by
  have hmem : l ∈ leaves.filter fun l => l.id.name = f.name := h ▸ List.mem_singleton_self l
  obtain ⟨hl, hname⟩ := List.mem_filter.1 hmem
  obtain ⟨g, hg, hgname, hs⟩ := (lookup_of_entryKey hregular htype hk).1 l hl
  obtain rfl : g = f :=
    List.eq_of_nodup_map hregular.nodup_names hg hf (hgname.trans (of_decide_eq_true hname))
  obtain ⟨v, hv⟩ := Option.isSome_iff_exists.1 hs
  rw [KeyField.given, KeyField.given?_of_filter_eq h, hv, Option.getD_some]

/-! ### Steps of entries -/

/-- Operations alone have no step. -/
theorem isSome_of_keyStep? {key : NodeKey} {step? : Option Step}
    (h : reg.keyStep? r key = .ok step?) : step?.isSome = (r.kind != .rpc) := by
  cases keyStep?_eq_ok_iff.1 h with
  | operation hkind => simp [hkind]
  | child _ _ hrpc => simp [hrpc]
  | entry hkind => simp [hkind]
  | leaf hkind => obtain hkind | ⟨hkind, -⟩ := hkind <;> simp [hkind]
  | leafEntry hkind => simp [hkind]

/-- An entry of a list is selected by key leaves, and its step has the key made of them. -/
theorem exists_entry_of_keyStep? {key : NodeKey} {step? : Option Step} (hk : list.kind = .list)
    (h : reg.keyStep? list key = .ok step?) : ∃ leaves c k, key.selector = .list leaves ∧
      reg.entryKey list leaves = .ok k ∧ step? = some (.entry c k) := by
  cases keyStep?_eq_ok_iff.1 h with
  | entry _ hselector _ hentry => exact ⟨_, _, _, hselector, hentry, rfl⟩
  | operation hkind => simp [hk] at hkind
  | child _ hlist => exact absurd hk hlist
  | leaf hkind => simp [hk] at hkind
  | leafEntry hkind => simp [hk] at hkind

/-- Where object ids are equal, the steps that were made of the keys are equal one by one: at an
operation there is none in either. -/
theorem forall₂_steps_of_beq {keys₁ keys₂ : List NodeKey} {nodes : List Ref}
    {steps₁ steps₂ : List (Option Step)} (hlen₁ : nodes.length = keys₁.length)
    (hlen₂ : nodes.length = keys₂.length)
    (h₁ : List.Forall₂ (fun (p : NodeKey × Ref) step? => reg.keyStep? p.2 p.1 = .ok step?)
      (keys₁.zip nodes) steps₁)
    (h₂ : List.Forall₂ (fun (p : NodeKey × Ref) step? => reg.keyStep? p.2 p.1 = .ok step?)
      (keys₂.zip nodes) steps₂)
    (heq : (steps₁.reduceOption == steps₂.reduceOption) = true) :
    List.Forall₂ (fun a b => (a == b) = true) steps₁ steps₂ := by
  have hgaps {keys : List NodeKey} {steps : List (Option Step)}
      (hlen : nodes.length = keys.length)
      (h : List.Forall₂ (fun (p : NodeKey × Ref) step? => reg.keyStep? p.2 p.1 = .ok step?)
        (keys.zip nodes) steps) :
      steps.map Option.isSome = nodes.map fun r => r.kind != .rpc := by
    have hkinds : List.Forall₂ (fun kind (step? : Option Step) => step?.isSome = kind)
        ((keys.zip nodes).map fun p => p.2.kind != .rpc) steps :=
      List.forall₂_map_left_iff.2 (h.imp fun _ _ hstep => isSome_of_keyStep? hstep)
    rw [List.map_eq_of_forall₂ hkinds fun _ _ hkind => hkind]
    conv_rhs => rw [← List.map_snd_zip (Nat.le_of_eq hlen), List.map_map]
    rfl
  exact List.forall₂_of_reduceOption_beq ((hgaps hlen₁ h₁).trans (hgaps hlen₂ h₂).symm) heq

/-- Object ids of resource ids that follow the same schema nodes. If they are equal, then both resource
ids select an entry at each list, and for each key of the list the key leaves of both give the same
value to its field: the value of the last key leaf of that name, as the field stores it, or else the
default of its type. So where both carry the key once, it has the same value in both. -/
theorem given_of_beq {rid₁ rid₂ : ResourceId} {oid₁ oid₂ : ObjectId} {nodes : List Ref}
    (hnodes₁ : reg.waypoints? none rid₁.segments = some nodes)
    (hnodes₂ : reg.waypoints? none rid₂.segments = some nodes)
    (hkeys : ∀ list ∈ nodes, list.kind = .list → reg.KeysHeld list)
    (h₁ : reg.toObjectId rid₁ = .ok oid₁) (h₂ : reg.toObjectId rid₂ = .ok oid₂)
    (heq : (oid₁ == oid₂) = true) {i : Nat} {key₁ key₂ : NodeKey}
    (hi₁ : rid₁.segments[i]? = some key₁) (hi₂ : rid₂.segments[i]? = some key₂)
    (hi : nodes[i]? = some list) (hk : list.kind = .list) :
    ∃ leaves₁ leaves₂, key₁.selector = .list leaves₁ ∧ key₂.selector = .list leaves₂ ∧
      ∀ name ∈ list.keys, ∃ type f, (reg.classOf? list).bind Class.key = some type ∧
        type.leaf? name = some f ∧ f.given leaves₁ = f.given leaves₂ ∧
          ∀ l₁ l₂, leaves₁.filter (fun l => l.id.name = name) = [l₁] →
            leaves₂.filter (fun l => l.id.name = name) = [l₂] →
              ∃ v, f.type.store? l₁.value = some v ∧ f.type.store? l₂.value = some v := by
  obtain ⟨nodes₁, steps₁, hn₁, hsteps₁, hout₁⟩ := exists_waypoints_of_followKeys h₁
  obtain ⟨nodes₂, steps₂, hn₂, hsteps₂, hout₂⟩ := exists_waypoints_of_followKeys h₂
  -- Both walks pass the same nodes, so that their steps are in line.
  obtain rfl : nodes₁ = nodes := Option.some.inj (hn₁.symm.trans hnodes₁)
  obtain rfl : nodes₂ = nodes₁ := Option.some.inj (hn₂.symm.trans hnodes₂)
  have hsteps : (oid₁.steps == oid₂.steps) = true := heq
  rw [hout₁, hout₂] at hsteps
  have hall := forall₂_steps_of_beq (length_waypoints? hn₁) (length_waypoints? hn₂) hsteps₁ hsteps₂
    hsteps
  -- The steps at the list are entries with equal keys.
  obtain ⟨step₁, hs₁, hstep₁⟩ :=
    hsteps₁.exists_getElem? (a := (key₁, list)) (List.getElem?_zip_eq_some.2 ⟨hi₁, hi⟩)
  obtain ⟨step₂, hs₂, hstep₂⟩ :=
    hsteps₂.exists_getElem? (a := (key₂, list)) (List.getElem?_zip_eq_some.2 ⟨hi₂, hi⟩)
  obtain ⟨leaves₁, c₁, k₁, hsel₁, hentry₁, rfl⟩ := exists_entry_of_keyStep? hk hstep₁
  obtain ⟨leaves₂, c₂, k₂, hsel₂, hentry₂, rfl⟩ := exists_entry_of_keyStep? hk hstep₂
  obtain ⟨step, hs, hbeq⟩ := hall.exists_getElem? hs₁
  obtain rfl : some (Step.entry c₂ k₂) = step := Option.some.inj (hs₂.symm.trans hs)
  have hvalues : k₁.values = k₂.values := by
    have hkey : (k₁ == k₂) = true := (Bool.and_eq_true_iff.1 hbeq).2
    exact eq_of_beq (Bool.and_eq_true_iff.1 hkey).2
  refine ⟨leaves₁, leaves₂, hsel₁, hsel₂, fun name hname => ?_⟩
  obtain ⟨type, htype, -⟩ := Except.bind_eq_ok_iff.1 hentry₁
  rw [found_eq_ok_iff] at htype
  obtain ⟨hregular, hfields⟩ := hkeys list (List.mem_of_getElem? hi) hk type htype
  obtain ⟨f, hf, rfl⟩ := hfields name hname
  obtain ⟨-, hgiven₁⟩ := lookup_of_entryKey hregular htype hentry₁
  obtain ⟨-, hgiven₂⟩ := lookup_of_entryKey hregular htype hentry₂
  have hsame : f.given leaves₁ = f.given leaves₂ := by
    have h := hgiven₁ f hf
    rw [hvalues, hgiven₂ f hf] at h
    exact (Option.some.inj h).symm
  refine ⟨type, f, htype, hregular.leaf?_eq hf, hsame, fun l₁ l₂ hl₁ hl₂ => ⟨f.given leaves₁, ?_, ?_⟩⟩
  · exact store?_of_filter_eq hregular htype hentry₁ hf hl₁
  · rw [hsame]
    exact store?_of_filter_eq hregular htype hentry₂ hf hl₂

/-! ### Entries of a shop -/

namespace Shop

/-- The pens of a shop, of which no namespace is told. -/
def pensByName : ResourceId :=
  ⟨[{ id := ⟨"store", none⟩ },
    { id := ⟨"item", none⟩, selector := .list [{ id := ⟨"name", none⟩, value := .string "pen" }] }]⟩

/-- An item of a shop, selected by whatever key leaves. -/
def itemWith (leaves : List KeyLeaf) : ResourceId :=
  ⟨[{ id := storeRef.id }, { id := itemRef.id, selector := .list leaves }]⟩

theorem toObjectId_pensByName : registry.toObjectId pensByName =
    .ok ⟨[.child "Store", .entry "Item" ⟨itemKey, [("name", .string "pen")]⟩]⟩ := by
  with_unfolding_all rfl

theorem keyClass_item : (registry.classOf? itemRef).bind Class.key = some itemKey := by
  decide +kernel

theorem keysHeld_item : registry.KeysHeld itemRef := by
  intro type htype
  obtain rfl : itemKey = type := Option.some.inj (keyClass_item.symm.trans htype)
  exact ⟨⟨by decide, by decide⟩, by decide⟩

end Shop

/-- Two resource ids of the pens of a shop have the same object id, and give the same name. -/
theorem given_pen : Shop.registry.toObjectId Shop.pens = Shop.registry.toObjectId Shop.pensByName ∧
    ∃ f, Shop.itemKey.leaf? "name" = some f ∧
      f.given [{ id := Shop.nameRef.id, value := .string "pen" }] =
        f.given [{ id := ⟨"name", none⟩, value := .string "pen" }] := by
  refine ⟨Shop.toObjectId_pens.trans Shop.toObjectId_pensByName.symm, ?_⟩
  have hpath : Shop.registry.waypoints? none Shop.pens.segments =
      some [Shop.storeRef, Shop.itemRef] := by with_unfolding_all rfl
  have hpathByName : Shop.registry.waypoints? none Shop.pensByName.segments =
      some [Shop.storeRef, Shop.itemRef] := by with_unfolding_all rfl
  have hheld : ∀ list ∈ [Shop.storeRef, Shop.itemRef], list.kind = .list →
      Shop.registry.KeysHeld list := by
    intro list hlist hk
    rcases List.mem_pair.1 hlist with rfl | rfl
    · cases hk
    · exact Shop.keysHeld_item
  obtain ⟨leaves₁, leaves₂, hs₁, hs₂, hall⟩ :=
    given_of_beq hpath hpathByName hheld Shop.toObjectId_pens Shop.toObjectId_pensByName
      (by decide) (i := 1) rfl rfl rfl rfl
  cases hs₁
  cases hs₂
  obtain ⟨type, f, htype, hf, hsame, -⟩ := hall "name" (by decide)
  obtain rfl : Shop.itemKey = type := Option.some.inj (Shop.keyClass_item.symm.trans htype)
  exact ⟨f, hf, hsame⟩

/-- An item of a shop may be selected without its name. It is taken for the one with the empty name,
and of two names only the second counts. -/
theorem nameless_item : Shop.registry.Reachable ∧ Shop.registry.KeysHeld Shop.itemRef ∧
    Shop.itemRef.keys = ["name"] ∧
    (∃ oid₁ oid₂, Shop.registry.toObjectId (Shop.itemWith []) = .ok oid₁ ∧
      Shop.registry.toObjectId
        (Shop.itemWith [{ id := Shop.nameRef.id, value := .string "" }]) = .ok oid₂ ∧
      (oid₁ == oid₂) = true) ∧
    ∃ oid₁ oid₂, Shop.registry.toObjectId (Shop.itemWith
        [{ id := Shop.nameRef.id, value := .string "cup" },
          { id := Shop.nameRef.id, value := .string "pen" }]) = .ok oid₁ ∧
      Shop.registry.toObjectId
        (Shop.itemWith [{ id := Shop.nameRef.id, value := .string "pen" }]) = .ok oid₂ ∧
      (oid₁ == oid₂) = true :=
  ⟨Shop.sole.reachable, Shop.keysHeld_item, rfl,
    ⟨_, _, by with_unfolding_all rfl, by with_unfolding_all rfl, by decide⟩,
    ⟨_, _, by with_unfolding_all rfl, by with_unfolding_all rfl, by decide⟩⟩

end Registry

end YangBinding
