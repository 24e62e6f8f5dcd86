import Mathlib.Data.List.ReduceOption
import YangBinding.Proofs.Binding.Address
import YangBinding.Proofs.Binding.Described

/-!
# Two readers of resource ids

A resource id is read in two ways: to find the schema node at its end, and to find the object id of
the same place. Both readers follow the names of its keys from node to node, and each looks at the
selectors with a table of its own. For lists and leaf-lists the tables agree. Of anything else there
is one instance at most, and nothing to select: the first reader refuses a selector there, and the
second does not look.

## Main definitions

* `Registry.waypoints?` — the nodes that the names of keys lead to
* `Registry.overselects` — a selector on a node that needs none

## Main results

* `Registry.fitsSelector_of_keyStep?` — what makes a step is selected as it should, or overselected
* `Registry.exists_waypoints_of_followKeys` — the steps of an object id, node by node
* `Registry.foldlM_resolveKey_eq` — keys are resolved up to the first that is overselected
* `Registry.resolve_of_toObjectId` — so is an id that has an object id
-/

namespace YangBinding.Registry

open Schema (DataChild Kind Ref)
open YangBinding.Tree (NodeKey ResourceId Selector)

variable {reg : Registry} {r : Ref} {parent : Option Ref} {key : NodeKey} {keys : List NodeKey}
  {nodes : List Ref} {oid out : ObjectId} {rid : ResourceId}

/-- The nodes that the names of keys lead to, one after the other. -/
def waypoints? (reg : Registry) : Option Ref → List NodeKey → Option (List Ref)
  | _, [] => some []
  | parent, key :: keys =>
    (reg.childOf? parent key.name key.ns).bind fun child =>
      (reg.waypoints? (some child.node) keys).map (child.node :: ·)

/-- Something is selected where there is nothing to select. -/
def overselects (kind : Kind) (selector : Selector) : Bool :=
  kind != .list && kind != .leafList && selector != .single

theorem waypoints?_cons_eq_some_iff : reg.waypoints? parent (key :: keys) = some nodes ↔
    ∃ child rest, reg.childOf? parent key.name key.ns = some child ∧
      reg.waypoints? (some child.node) keys = some rest ∧ nodes = child.node :: rest := by
  simp only [waypoints?, Option.bind_eq_some_iff, Option.map_eq_some_iff]
  constructor
  · rintro ⟨child, hchild, rest, hrest, rfl⟩
    exact ⟨child, rest, hchild, hrest, rfl⟩
  · rintro ⟨child, rest, hchild, hrest, rfl⟩
    exact ⟨child, hchild, rest, hrest, rfl⟩

theorem length_waypoints? (h : reg.waypoints? parent keys = some nodes) :
    nodes.length = keys.length := by
  induction keys generalizing parent nodes with
  | nil =>
    cases h
    rfl
  | cons key keys ih =>
    obtain ⟨child, rest, -, hrest, rfl⟩ := waypoints?_cons_eq_some_iff.1 h
    rw [List.length_cons, List.length_cons, ih hrest]

/-- A key that makes a step, or none where an operation needs none, selects as it should, unless it
selects where there is nothing to select. -/
theorem fitsSelector_of_keyStep? {step? : Option Step} (h : reg.keyStep? r key = .ok step?) :
    fitsSelector r.kind key.selector = !overselects r.kind key.selector := by
  cases keyStep?_eq_ok_iff.1 h with
  | operation hkind => cases hs : key.selector <;> simp [fitsSelector, overselects, hkind]
  | child hleaf hlist =>
    cases hk : r.kind <;> cases hs : key.selector <;>
      simp_all [fitsSelector, overselects, Kind.isLeafLike]
  | entry hkind hselector => simp [fitsSelector, overselects, hkind, hselector]
  | leaf hkind =>
    obtain hkind | ⟨hkind, hselector⟩ := hkind
    · cases hs : key.selector <;> simp [fitsSelector, overselects, hkind]
    · simp [fitsSelector, overselects, hkind, hselector]
  | leafEntry hkind hselector => simp [fitsSelector, overselects, hkind, hselector]

/-- Where an object id is found, each key has led to a node and made a step there, or none. -/
theorem exists_waypoints_of_followKeys (h : reg.followKeys rid keys oid parent = .ok out) :
    ∃ nodes steps, reg.waypoints? parent keys = some nodes ∧
      List.Forall₂ (fun (p : NodeKey × Ref) step? => reg.keyStep? p.2 p.1 = .ok step?)
        (keys.zip nodes) steps ∧ out.steps = oid.steps ++ steps.reduceOption := by
  induction keys generalizing oid parent with
  | nil =>
    cases h
    exact ⟨[], [], rfl, .nil, (List.append_nil _).symm⟩
  | cons key keys ih =>
    obtain ⟨child, step?, oid', hchild, hstep, hpush, h⟩ := followKeys_cons_iff.1 h
    obtain ⟨nodes, steps, hnodes, hsteps, hout⟩ := ih h
    refine ⟨child.node :: nodes, step? :: steps,
      waypoints?_cons_eq_some_iff.2 ⟨child, nodes, hchild, hnodes, rfl⟩, .cons hstep hsteps, ?_⟩
    rw [hout]
    cases step? with
    | none =>
      cases hpush
      rfl
    | some step => rw [steps_of_push hpush, List.reduceOption_cons_of_some, List.append_assoc,
        List.singleton_append]

/-- A key that selects as it should, unless there is nothing to select, is refused only then. -/
theorem resolveKey_eq {child : DataChild} (hchild : reg.childOf? parent key.name key.ns = some child)
    (hfits : fitsSelector child.node.kind key.selector =
      !overselects child.node.kind key.selector) :
    reg.resolveKey rid parent key =
      if overselects child.node.kind key.selector then
        Result.refuse (.keyMismatch key.text child.node.kind child.node.name)
      else .ok child.node := by
  rw [resolveKey, found_eq_ok_iff.2 hchild]
  change (if fitsSelector child.node.kind key.selector = true then _ else _) = _
  rw [hfits]
  cases overselects child.node.kind key.selector <;> rfl

/-- Keys that select as they should wherever there is something to select are resolved, up to the
first that selects where there is nothing. -/
theorem foldlM_resolveKey_eq (hnodes : reg.waypoints? parent keys = some nodes)
    (hfits : ∀ p ∈ keys.zip nodes,
      fitsSelector p.2.kind p.1.selector = !overselects p.2.kind p.1.selector) :
    keys.foldlM (fun parent key => some <$> reg.resolveKey rid parent key) parent =
      match (keys.zip nodes).find? fun p => overselects p.2.kind p.1.selector with
      | none => .ok (nodes.getLast?.or parent)
      | some (key, node) => Result.refuse (.keyMismatch key.text node.kind node.name) := by
  -- By induction on the keys: the first one is refused, or leads to where the others start.
  induction keys generalizing parent nodes with
  | nil =>
    cases hnodes
    rfl
  | cons key keys ih =>
    obtain ⟨child, rest, hchild, hrest, rfl⟩ := waypoints?_cons_eq_some_iff.1 hnodes
    rw [List.zip_cons_cons, List.forall_mem_cons] at hfits
    rw [List.foldlM_cons, resolveKey_eq hchild hfits.1, List.zip_cons_cons, List.find?_cons]
    cases overselects child.node.kind key.selector with
    | true => rfl
    | false =>
      change keys.foldlM _ (some child.node) = _
      have hlast : rest.getLast?.or (some child.node) = (child.node :: rest).getLast?.or parent := by
        rw [List.getLast?_cons]
        cases rest.getLast? <;> rfl
      rw [ih hrest hfits.2, hlast]

/-- An id that has an object id leads to a node at each of its keys, and selects as it should
wherever the node is a list or a leaf-list. It is resolved to the last of these nodes, unless it
selects something at a node that is neither. The first such key is then refused. -/
theorem resolve_of_toObjectId (h : reg.toObjectId rid = .ok oid) :
    ∃ nodes, reg.waypoints? none rid.segments = some nodes ∧
      (∀ p ∈ rid.segments.zip nodes,
        fitsSelector p.2.kind p.1.selector = true ∨ overselects p.2.kind p.1.selector = true) ∧
      reg.resolve rid =
        match (rid.segments.zip nodes).find? fun p => overselects p.2.kind p.1.selector with
        | none => .ok nodes.getLast?
        | some (key, node) => Result.refuse (.keyMismatch key.text node.kind node.name) := by
  obtain ⟨nodes, steps, hnodes, hsteps, -⟩ := exists_waypoints_of_followKeys h
  have hfits : ∀ p ∈ rid.segments.zip nodes,
      fitsSelector p.2.kind p.1.selector = !overselects p.2.kind p.1.selector := by
    intro p hp
    obtain ⟨step?, -, hstep⟩ := hsteps.exists_right hp
    exact fitsSelector_of_keyStep? hstep
  refine ⟨nodes, hnodes, fun p hp => ?_, ?_⟩
  · rw [hfits p hp]
    cases overselects p.2.kind p.1.selector
    · exact .inl rfl
    · exact .inr rfl
  · rw [resolve, foldlM_resolveKey_eq hnodes hfits, Option.or_none]

/-! ### Resource ids of a shop -/

namespace Shop

/-- The resource id of the pens of a shop. -/
def pens : ResourceId :=
  ⟨[{ id := storeRef.id },
    { id := itemRef.id, selector := .list [{ id := nameRef.id, value := .string "pen" }] }]⟩

/-- A store of which an entry is selected, although a shop has one at most. -/
def storeOfPens : ResourceId :=
  ⟨[{ id := storeRef.id, selector := .list [{ id := nameRef.id, value := .string "pen" }] }]⟩

theorem toObjectId_pens : registry.toObjectId pens =
    .ok ⟨[.child "Store", .entry "Item" ⟨itemKey, [("name", .string "pen")]⟩]⟩ := by
  with_unfolding_all rfl

theorem toObjectId_storeOfPens : registry.toObjectId storeOfPens = .ok ⟨[.child "Store"]⟩ := by
  with_unfolding_all rfl

end Shop

/-- Both readers find the pens of a shop. -/
theorem resolve_pens :
    Shop.registry.toObjectId Shop.pens =
        .ok ⟨[.child "Store", .entry "Item" ⟨Shop.itemKey, [("name", .string "pen")]⟩]⟩ ∧
      Shop.registry.resolve Shop.pens = .ok (some Shop.itemRef) := by
  refine ⟨Shop.toObjectId_pens, ?_⟩
  obtain ⟨nodes, hnodes, -, hresolve⟩ := resolve_of_toObjectId Shop.toObjectId_pens
  have hpath : Shop.registry.waypoints? none Shop.pens.segments =
      some [Shop.storeRef, Shop.itemRef] := by with_unfolding_all rfl
  rw [hpath] at hnodes
  cases hnodes
  rw [hresolve]
  rfl

/-- The selector of a store is passed over on the way to an object id, and refused otherwise. -/
theorem storeOfPens_overselected : Shop.registry.Reachable ∧
    Shop.registry.toObjectId Shop.storeOfPens = .ok ⟨[.child "Store"]⟩ ∧
      Shop.registry.resolve Shop.storeOfPens =
        Result.refuse (.keyMismatch "store[name=pen]" .container "store") ∧
      fitsSelector Shop.storeRef.kind (.list [{ id := Shop.nameRef.id, value := .string "pen" }]) =
        false :=
  ⟨Shop.sole.reachable, Shop.toObjectId_storeOfPens, by with_unfolding_all rfl, rfl⟩

end YangBinding.Registry
