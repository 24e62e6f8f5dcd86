import YangBinding.Object.Key
import YangBinding.Proofs.Leaf.Values
import YangBinding.Proofs.Outcome
import YangBinding.Proofs.Sequence

/-!
# Typed keys

A key of a list entry holds values of the types of its leaves from the start, and setting a leaf
keeps it that way.

## Main definitions

* `KeyClass.Regular` — a key class as the field macros build it
* `Key.Typed` — a key of a class whose leaves all hold values of their types

## Main results

* `Key.typed_new`, `Key.Typed.exists_of_set` — keys are typed from the start and stay so
-/

namespace YangBinding

/-- A key class as the field macros build it: its leaves belong to its keys and have distinct
names. -/
structure KeyClass.Regular (type : KeyClass) : Prop where
  owner : ∀ leaf ∈ type.leaves, leaf.owner = type.typeName
  nodup_names : (type.leaves.map KeyField.name).Nodup

/-- A key of a class whose leaves all hold values of their types. -/
structure Key.Typed (key : Key) (type : KeyClass) : Prop where
  type_eq : key.type = type
  values : ∀ leaf ∈ type.leaves,
    ∃ v, key.values.lookup leaf.name = some v ∧ leaf.type.store? v = some v

namespace Object

/-- What stands under a name after one entry has been changed. -/
theorem lookup_replaceEntry {α : Type} (name : String) (change : α → α)
    (entries : List (String × α)) (k : String) :
    (replaceEntry name change entries).lookup k =
      if k = name then (entries.lookup k).map change else entries.lookup k := by
  induction entries with
  | nil => simp [replaceEntry]
  | cons entry entries ih =>
    obtain ⟨n, a⟩ := entry
    change ((if n = name then (n, change a) else (n, a)) ::
      replaceEntry name change entries).lookup k = _
    by_cases hn : n = name <;> by_cases hk : k = n
    · subst hk
      simp [hn]
    · have hk' : k ≠ name := hn ▸ hk
      simp [hn, ih, List.lookup_cons, beq_eq_false_iff_ne.2 hk']
    · subst hk
      simp [hn]
    · simp [hn, ih, List.lookup_cons, beq_eq_false_iff_ne.2 hk]

end Object

namespace KeyClass

variable {type : KeyClass} {leaf : KeyField}

theorem Regular.leaf?_eq (h : type.Regular) (hl : leaf ∈ type.leaves) :
    type.leaf? leaf.name = some leaf := by
  refine List.find?_eq_some_of_unique hl (by simp) ?_
  intro other ho hn
  exact List.eq_of_nodup_map h.nodup_names ho hl (by simpa using hn)

/-- A new key holds the default of every leaf. -/
theorem Regular.lookup_new (h : type.Regular) (hl : leaf ∈ type.leaves) :
    type.new.values.lookup leaf.name = some leaf.type.default := by
  have hown : (type.leaves.filter fun l => l.owner == type.typeName) = type.leaves :=
    List.filter_eq_self.2 fun l hl => by simp [h.owner l hl]
  rw [new, hown]
  exact List.lookup_map_of_nodup h.nodup_names hl

end KeyClass

namespace Key

variable {key key' : Key} {type : KeyClass} {leaf : KeyField} {v : LeafValue}

theorem typed_new (h : type.Regular) : type.new.Typed type where
  type_eq := rfl
  values := fun leaf hl =>
    ⟨leaf.type.default, h.lookup_new hl, Scalar.holds_iff.1 leaf.type.holds_default⟩

/-- A leaf of a key of its own type is set, if it can store the value. -/
theorem set_eq_ok_iff : key.set leaf v = .ok key' ↔ key.type.typeName = leaf.owner ∧
    ∃ s, leaf.type.store? v = some s ∧
      key' = { key with values := Object.replaceEntry leaf.name (fun _ => s) key.values } := by
  rw [Key.set, checkTarget, Scalar.store]
  by_cases howner : key.type.typeName = leaf.owner <;> cases hs : leaf.type.store? v <;>
    simp [howner, bind, Except.bind, pure, Except.pure, eq_comm]

/-- What stands under a name after a leaf has been set. -/
theorem Typed.lookup_replaceEntry (h : key.Typed type) (hl : leaf ∈ type.leaves) (v : LeafValue)
    (name : String) : (Object.replaceEntry leaf.name (fun _ => v) key.values).lookup name =
      if name = leaf.name then some v else key.values.lookup name := by
  rw [Object.lookup_replaceEntry]
  split
  · next hn =>
    obtain ⟨w, hw, -⟩ := h.values leaf hl
    rw [hn, hw, Option.map_some]
  · rfl

/-- A key stays typed when a typed value takes the place of another. -/
theorem Typed.replaceEntry (h : key.Typed type) (ht : type.Regular) (hl : leaf ∈ type.leaves)
    (hv : leaf.type.store? v = some v) :
    ({ key with values := Object.replaceEntry leaf.name (fun _ => v) key.values } : Key).Typed
      type where
  type_eq := h.type_eq
  values := by
    intro other ho
    rw [h.lookup_replaceEntry hl]
    split
    · next hn => exact ⟨v, rfl, List.eq_of_nodup_map ht.nodup_names ho hl hn ▸ hv⟩
    · exact h.values other ho

/-- A typed value can be set in a typed key, and nothing else changes. -/
theorem Typed.set (h : key.Typed type) (ht : type.Regular) (hl : leaf ∈ type.leaves)
    (hv : leaf.type.store? v = some v) :
    ∃ key', key.set leaf v = .ok key' ∧ key'.Typed type ∧
      ∀ name, key'.values.lookup name =
        if name = leaf.name then some v else key.values.lookup name := by
  have howner : key.type.typeName = leaf.owner := by rw [h.type_eq, ht.owner leaf hl]
  exact ⟨_, set_eq_ok_iff.2 ⟨howner, v, hv, rfl⟩, h.replaceEntry ht hl hv,
    h.lookup_replaceEntry hl v⟩

/-- Whatever is set in a typed key, it stays typed, and nothing but the leaf changes. -/
theorem Typed.exists_of_set (h : key.Typed type) (ht : type.Regular) (hl : leaf ∈ type.leaves)
    (hset : key.set leaf v = .ok key') : key'.Typed type ∧
      ∃ s, leaf.type.store? v = some s ∧ ∀ name, key'.values.lookup name =
        if name = leaf.name then some s else key.values.lookup name := by
  obtain ⟨-, s, hs, rfl⟩ := set_eq_ok_iff.1 hset
  -- The stored value itself would have been stored as it is.
  exact ⟨h.replaceEntry ht hl (Scalar.store?_of_store? hs), s, hs, h.lookup_replaceEntry hl s⟩

/-- The value of a leaf of a typed key. -/
theorem Typed.get_eq (h : key.Typed type) (ht : type.Regular) (hl : leaf ∈ type.leaves) :
    ∃ v, key.get leaf = .ok v ∧ key.values.lookup leaf.name = some v ∧
      leaf.type.store? v = some v := by
  obtain ⟨v, hv, hs⟩ := h.values leaf hl
  have howner : key.type.typeName = leaf.owner := by rw [h.type_eq, ht.owner leaf hl]
  refine ⟨v, ?_, hv, hs⟩
  simp only [Key.get, checkTarget, howner, if_true, hv, Option.getD_some]
  rfl

end Key

end YangBinding
