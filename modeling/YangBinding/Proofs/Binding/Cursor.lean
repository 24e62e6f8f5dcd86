import YangBinding.Proofs.Binding.Addressed
import YangBinding.Tree.Cursor

/-!
# Cursors and resource ids

A cursor is sent down by names as they stand in a text, with or without namespaces. The resource id
that it builds has full identifiers instead, and is resolved by these alone. Both come to the same
node: the cursor is always at the node that its id is resolved to, whatever has been asked of it and
whatever of that has been refused.

## Main definitions

* `Tree.Cursor.Request` — what is asked of a cursor
* `Tree.Cursor.run` — the cursor after a sequence of requests

## Main results

* `Registry.Reachable.resolve_descend` — one step down keeps a cursor at the node of its id
* `Registry.Reachable.descend_again` — the namespace of the node that is found may be given as well
* `Registry.descend_inherited` — children in the namespace of the node come first
* `Registry.Reachable.resolve_run` — so it is after any sequence of requests
-/

namespace YangBinding

open Schema (DataChild Kind Ref)
open YangBinding.Tree (Cursor NodeKey ResourceId)

namespace Tree.Cursor

variable {reg : Registry} {c c' : Cursor} {child : Ref} {key : NodeKey} {name : String}
  {ns value : Option String}

/-- What is asked of a cursor: to go down to the child of a name, whose namespace and value may be
given. -/
structure Request where
  name : String
  ns : Option String := none
  value : Option String := none

/-- The cursor after a request; if the request is refused, it stays where it is. -/
def step (c : Cursor) (reg : Registry) (request : Request) : Cursor :=
  match c.descend reg request.name request.ns request.value with
  | .ok next => next
  | .error _ => c

/-- The cursor after a sequence of requests. -/
def run (c : Cursor) (reg : Registry) (requests : List Request) : Cursor :=
  requests.foldl (fun c request => c.step reg request) c

/-- The key of a node has its identifier and addresses it as its kind demands. -/
theorem of_keyOf_eq_ok (h : keyOf child value = .ok key) :
    key.id = child.id ∧ Registry.fitsSelector child.kind key.selector = true := by
  unfold keyOf at h
  split at h
  · next hkind =>
    -- A list has as many values as keys.
    dsimp only at h
    split at h
    · cases h
      exact ⟨rfl, by rw [hkind]; rfl⟩
    · cases h
  · cases h
  · next hkind =>
    cases h
    exact ⟨rfl, by rw [hkind]; rfl⟩
  · cases h
  · next hlist =>
    cases h
    refine ⟨rfl, ?_⟩
    cases hkind : child.kind with
    | list => exact (hlist hkind).elim
    | _ => rfl

/-- When a cursor goes down, and where to. -/
theorem descend_eq_ok_iff : c.descend reg name ns value = .ok c' ↔
    (∀ node, c.schema = some node → node.kind.isLeafLike = false) ∧
      ∃ child key, reg.childOf? c.schema name ns = some child ∧
        keyOf child.node value = .ok key ∧
        c' = { id := c.id.push key, schema := some child.node } := by
  have hdown : (do
      let child ← Result.found (.noNodeAt name c.id.text) (reg.childOf? c.schema name ns)
      let key ← keyOf child.node value
      pure { id := c.id.push key, schema := some child.node } : Result Cursor) = .ok c' ↔
      ∃ child key, reg.childOf? c.schema name ns = some child ∧
        keyOf child.node value = .ok key ∧
        c' = { id := c.id.push key, schema := some child.node } := by
    rw [Except.bind_eq_ok_iff]
    refine exists_congr fun child => ?_
    rw [Registry.found_eq_ok_iff, Except.bind_eq_ok_iff, ← exists_and_left]
    refine exists_congr fun key => and_congr_right fun _ => and_congr_right fun _ => ?_
    constructor
    · rintro ⟨⟩
      rfl
    · rintro rfl
      rfl
  -- At the root there is no node to check, elsewhere it must not be a leaf.
  unfold descend
  cases hc : c.schema with
  | none =>
    rw [hc] at hdown
    simpa using hdown
  | some node =>
    rw [hc] at hdown
    cases hleaf : node.kind.isLeafLike with
    | true => simp [hleaf, Result.refuse, bind, Except.bind]
    | false => simpa [hleaf] using hdown

end Tree.Cursor

namespace Registry

variable {reg : Registry} {c c' : Cursor} {r : Ref} {e : DataChild} {parent : Option Ref}
  {name : String} {ns value : Option String} {requests : List Cursor.Request}

/-- What a look-up finds has the name that was asked for. -/
theorem name_of_childOf? (hc : reg.childOf? parent name ns = some e) : e.node.name = name :=
  (Schema.Id.fits_iff.1 (fits_of_childOf? hc)).1

section Reachable

variable (h : reg.Reachable) (hu : reg.Unambiguous)
include h hu

/-- One step down keeps a cursor at the node that its id is resolved to. -/
theorem Reachable.resolve_descend (hc : reg.resolve c.id = .ok c.schema)
    (hd : c.descend reg name ns value = .ok c') : reg.resolve c'.id = .ok c'.schema := by
  obtain ⟨-, child, key, hchild, hkey, rfl⟩ := Cursor.descend_eq_ok_iff.1 hd
  obtain ⟨hid, hfits⟩ := Cursor.of_keyOf_eq_ok hkey
  -- The key that has been put into the id has the full identifier of the node that was found.
  obtain ⟨f, hf, hnode⟩ := h.childOf?_again hu (h.model_mem_of_resolve hc) hchild
  have hresolved : reg.resolveKey c.id c.schema key = .ok child.node := by
    apply resolveKey_eq_ok_iff.2
    refine ⟨f, ?_, hfits, hnode⟩
    rw [NodeKey.name, NodeKey.ns, hid]
    exact hf
  apply resolve_append hc
  rw [List.foldlM_cons, hresolved]
  rfl

/-- The namespace of the node that a cursor goes down to may be given as well. -/
theorem Reachable.descend_again (hc : reg.resolve c.id = .ok c.schema)
    (hd : c.descend reg name ns value = .ok c') :
    ∃ r, c'.schema = some r ∧ c.descend reg name r.ns value = .ok c' := by
  obtain ⟨hopen, child, key, hchild, hkey, rfl⟩ := Cursor.descend_eq_ok_iff.1 hd
  obtain ⟨f, hf, hnode⟩ := h.childOf?_again hu (h.model_mem_of_resolve hc) hchild
  rw [name_of_childOf? hchild] at hf
  refine ⟨child.node, rfl, ?_⟩
  apply Cursor.descend_eq_ok_iff.2
  exact ⟨hopen, f, key, hf, hnode ▸ hkey, by rw [hnode]⟩

omit h hu in
/-- Below a node, a name alone means a child in the namespace of the node, if there is one. -/
theorem descend_inherited (hr : c.schema = some r) (he : e ∈ reg.below (some r))
    (hns : e.node.ns = r.ns) (hn : r.ns ≠ none) :
    ∃ f ∈ reg.below (some r), f.node.id = e.node.id ∧
      ∀ value, c.descend reg e.node.name none value = c.descend reg e.node.name r.ns value ∧
        ∀ c', c.descend reg e.node.name none value = .ok c' → c'.schema = some f.node := by
  obtain ⟨n, hn⟩ := Option.ne_none_iff_exists'.1 hn
  have hself : e.node.id.fits e.node.name (some n) = true :=
    (hns.trans hn) ▸ Schema.Id.fits_self e.node.id
  -- The child itself may be hidden by an earlier one of the same identifier.
  obtain ⟨f, hf⟩ : ∃ f, reg.dataChild? (some r) e.node.name (some n) = some f := by
    rw [dataChild?_eq_find?]
    exact Option.isSome_iff_exists.1 (List.find?_isSome.2 ⟨e, he, hself⟩)
  obtain ⟨hbelow, hfits⟩ := mem_below_of_dataChild?_some hf
  have hid : f.node.id = e.node.id := by
    apply Schema.Id.eq_of_fits (hns.trans hn)
    rw [← hns.trans hn] at hfits
    exact hfits
  have hgiven : reg.childOf? (some r) e.node.name (some n) = some f := hf
  have hname : reg.childOf? (some r) e.node.name none = some f := by
    rw [childOf?, Option.bind_some, hn, preferredChild?, hf]
    rfl
  refine ⟨f, hbelow, hid, fun value => ⟨?_, fun c' hd => ?_⟩⟩
  · rw [Cursor.descend, Cursor.descend, hr, hn, hname, hgiven]
  · obtain ⟨-, child, _, hchild, -, rfl⟩ := Cursor.descend_eq_ok_iff.1 hd
    rw [hr, hname] at hchild
    exact congrArg (fun e => some e.node) (Option.some.inj hchild).symm

/-- A request keeps a cursor at the node that its id is resolved to, even if it is refused. -/
theorem Reachable.resolve_step (hc : reg.resolve c.id = .ok c.schema) (request : Cursor.Request) :
    reg.resolve (c.step reg request).id = .ok (c.step reg request).schema := by
  unfold Cursor.step
  cases hd : c.descend reg request.name request.ns request.value with
  | ok next => exact h.resolve_descend hu hc hd
  | error e => exact hc

/-- Wherever a cursor starts, after any sequence of requests it is at the node that its id is resolved
to. There a name with the namespace of the node that it leads to means the same as the name alone,
and among the children of the name one in the namespace of the node comes first. -/
theorem Reachable.resolve_run (hc : c = {} ∨ ∃ id, Cursor.at? reg id = .ok c)
    (requests : List Cursor.Request) :
    let d := c.run reg requests
    reg.resolve d.id = .ok d.schema ∧
    (∀ name ns value d', d.descend reg name ns value = .ok d' →
      ∃ r, d'.schema = some r ∧ d.descend reg name r.ns value = .ok d') ∧
    ∀ r, d.schema = some r → ∀ e ∈ reg.below (some r), e.node.ns = r.ns →
      ∃ f ∈ reg.below (some r), f.node.id = e.node.id ∧ ∀ value,
        d.descend reg e.node.name none value = d.descend reg e.node.name r.ns value ∧
        ∀ d', d.descend reg e.node.name none value = .ok d' → d'.schema = some f.node := by
  intro d
  have hstart : reg.resolve c.id = .ok c.schema := by
    obtain rfl | ⟨id, hat⟩ := hc
    · rfl
    · obtain ⟨base, hbase, hat⟩ := Except.bind_eq_ok_iff.1 hat
      cases hat
      exact hbase
  -- By induction on the requests: a refused one leaves the cursor where it is.
  have hd : reg.resolve d.id = .ok d.schema := by
    clear hc
    change reg.resolve (c.run reg requests).id = .ok (c.run reg requests).schema
    induction requests generalizing c with
    | nil => exact hstart
    | cons request requests ih => exact ih (h.resolve_step hu hstart request)
  refine ⟨hd, fun name ns value d' hdown => h.descend_again hu hd hdown, fun r hr e he hns => ?_⟩
  obtain ⟨n, hn⟩ := h.exists_ns (h.model_mem_of_resolve hd r hr)
  exact descend_inherited hr he hns (by simp [hn])

end Reachable

/-! ### Through the shop

The second request is refused, since an item is addressed with its name. -/

namespace Shop

def visiting : List Cursor.Request :=
  [{ name := "store" }, { name := "item" },
    { name := "item", ns := some "urn:shop", value := some "pen" }, { name := "tag" }]

/-- The id of the tags of the pen. -/
def tagsId : ResourceId :=
  ⟨[{ id := storeRef.id },
    { id := itemRef.id, selector := .list [{ id := nameRef.id, value := .string "pen" }] },
    { id := tagRef.id }]⟩

theorem run_visiting :
    Cursor.run {} registry visiting = { id := tagsId, schema := some tagRef } := by
  with_unfolding_all rfl

end Shop

/-- What has been asked in the shop leads to the tags of the pen, and so does the id. -/
theorem resolve_run_tags :
    Cursor.run {} Shop.registry Shop.visiting = { id := Shop.tagsId, schema := some Shop.tagRef } ∧
      Shop.registry.resolve Shop.tagsId = .ok (some Shop.tagRef) := by
  have hresolve :=
    (Shop.sole.reachable.resolve_run Shop.unambiguous (.inl rfl) Shop.visiting).1
  rw [Shop.run_visiting] at hresolve
  exact ⟨Shop.run_visiting, hresolve⟩

end Registry

end YangBinding
