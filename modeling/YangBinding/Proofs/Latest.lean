import Mathlib.Data.List.Forall2
import Mathlib.Data.List.Induction
import Mathlib.Data.List.Perm.Subperm
import Mathlib.Data.Option.Basic
import YangBinding.Object.Basic
import YangBinding.Proofs.Sequence
import YangBinding.Tree.Node

/-!
# Items in the place of earlier ones

Where items are told apart by keys, an item that comes with the key of an earlier one takes its
place. The children of data nodes and the augmentations of objects are kept in this way. What is
left of a sequence has distinct keys, and only repeated keys make it differ from the sequence.

## Main definitions

* `List.upsert` — puts an item in the place of the one with the same key
* `List.latest` — what is left when all items of a sequence are put down in this way

## Main results

* `List.map_key_latest`, `List.find?_latest` — keys stay in the order in which they first came, each
  with the last of its items
* `List.latest_flatMap` — sequences whose keys differ do not disturb each other
* `List.length_latest_iff` — nothing is replaced exactly if the keys are distinct
* `List.forall_find?_iff` — sequences with distinct keys are compared from one side
-/

namespace List

variable {α β κ : Type} [DecidableEq κ] {key : α → κ} {a b : α} {k : κ} {xs ys : List α}

/-- Puts an item in the place of the one with the same key, or at the end. -/
def upsert (key : α → κ) (a : α) : List α → List α
  | [] => [a]
  | b :: bs => if key b = key a then a :: bs else b :: upsert key a bs

/-- What is left when items are put down one after the other, each in the place of the one with the
same key. -/
def latest (key : α → κ) (xs : List α) : List α :=
  xs.foldl (fun kept a => upsert key a kept) []

/-! ### One item -/

theorem upsert_of_notMem (h : key a ∉ xs.map key) : upsert key a xs = xs ++ [a] := by
  induction xs with
  | nil => rfl
  | cons b bs ih =>
    simp only [map_cons, mem_cons, not_or] at h
    rw [upsert, if_neg (Ne.symm h.1), ih h.2, cons_append]

theorem map_key_upsert_of_mem (h : key a ∈ xs.map key) :
    (upsert key a xs).map key = xs.map key := by
  induction xs with
  | nil => cases h
  | cons b bs ih =>
    rw [upsert]
    by_cases hb : key b = key a
    · rw [if_pos hb, map_cons, map_cons, hb]
    · rw [if_neg hb, map_cons, map_cons, ih]
      simpa [Ne.symm hb] using h

theorem mem_upsert (h : b ∈ upsert key a xs) : b = a ∨ b ∈ xs := by
  induction xs with
  | nil => exact .inl (mem_singleton.1 h)
  | cons c cs ih =>
    rw [upsert] at h
    split at h
    · exact (mem_cons.1 h).imp_right (mem_cons_of_mem _)
    · rcases mem_cons.1 h with rfl | h
      · exact .inr mem_cons_self
      · exact (ih h).imp_right (mem_cons_of_mem _)

theorem mem_upsert_self (key : α → κ) (a : α) (xs : List α) : a ∈ upsert key a xs := by
  induction xs with
  | nil => exact mem_singleton_self a
  | cons b bs ih =>
    rw [upsert]
    split
    · exact mem_cons_self
    · exact mem_cons_of_mem b ih

/-- An item stays if the new one has another key. -/
theorem mem_upsert_of_mem (h : b ∈ xs) (hk : key b ≠ key a) : b ∈ upsert key a xs := by
  induction xs with
  | nil => cases h
  | cons c cs ih =>
    rw [upsert]
    rcases mem_cons.1 h with rfl | h
    · rw [if_neg hk]
      exact mem_cons_self
    · split
      · exact mem_cons_of_mem a h
      · exact mem_cons_of_mem c (ih h)

theorem upsert_map {f : β → α} {b : β} {ys : List β} :
    upsert key (f b) (ys.map f) = (upsert (fun b => key (f b)) b ys).map f := by
  induction ys with
  | nil => rfl
  | cons c cs ih =>
    simp only [map_cons, upsert]
    split
    · rfl
    · rw [ih, map_cons]

theorem upsert_append_of_notMem (h : key a ∉ xs.map key) :
    upsert key a (xs ++ ys) = xs ++ upsert key a ys := by
  induction xs with
  | nil => rfl
  | cons b bs ih =>
    simp only [map_cons, mem_cons, not_or] at h
    rw [cons_append, upsert, if_neg (Ne.symm h.1), ih h.2, cons_append]

/-- The key of the item leads to it, and any other key to what it led to before. -/
theorem find?_upsert : ((upsert key a xs).find? fun b => key b == k) =
    if key a = k then some a else xs.find? fun b => key b == k := by
  induction xs with
  | nil => by_cases h : key a = k <;> simp [upsert, h]
  | cons b bs ih =>
    rw [upsert]
    by_cases hb : key b = key a
    · by_cases h : key a = k <;> simp [hb, h]
    · rw [if_neg hb, find?_cons, find?_cons, ih]
      by_cases h : key a = k
      · have hne : key b ≠ k := fun hbk => hb (hbk.trans h.symm)
        simp [h, beq_eq_false_iff_ne.2 hne]
      · simp [h]

/-! ### All items -/

@[simp]
theorem latest_nil : latest key [] = [] := rfl

theorem latest_concat : latest key (xs ++ [a]) = upsert key a (latest key xs) := by
  simp [latest]

theorem mem_map_key_upsert : k ∈ (upsert key a xs).map key ↔ k = key a ∨ k ∈ xs.map key := by
  by_cases h : key a ∈ xs.map key
  · rw [map_key_upsert_of_mem h]
    exact ⟨.inr, fun hk => hk.elim (fun hk => hk ▸ h) id⟩
  · rw [upsert_of_notMem h, map_append, mem_append, or_comm]
    simp

/-- Every key of a sequence is left, and no other. -/
theorem mem_map_key_latest : k ∈ (latest key xs).map key ↔ k ∈ xs.map key := by
  induction xs using List.reverseRecOn with
  | nil => rfl
  | append_singleton xs a ih =>
    rw [latest_concat, mem_map_key_upsert, ih, map_append, mem_append, or_comm]
    simp

/-- The keys are left in the order in which they first came. -/
theorem map_key_latest (key : α → κ) (xs : List α) :
    (latest key xs).map key = (xs.map key).eraseDups := by
  induction xs using List.reverseRecOn with
  | nil => rfl
  | append_singleton xs a ih =>
    rw [latest_concat, map_append, map_singleton, eraseDups_append, ← ih]
    by_cases ha : key a ∈ xs.map key
    · have hnone : [key a].removeAll (xs.map key) = [] := by simpa [removeAll] using ha
      rw [map_key_upsert_of_mem (mem_map_key_latest.2 ha), hnone, eraseDups_nil, append_nil]
    · have hone : [key a].removeAll (xs.map key) = [key a] := by simpa [removeAll] using ha
      rw [upsert_of_notMem (mt mem_map_key_latest.1 ha), map_append, hone]
      rfl

/-- A key leads to the last item that came with it. -/
theorem find?_latest : ((latest key xs).find? fun a => key a == k) =
    (xs.filter fun a => key a == k).getLast? := by
  induction xs using List.reverseRecOn with
  | nil => rfl
  | append_singleton xs a ih =>
    rw [latest_concat, find?_upsert, filter_append, ih]
    by_cases ha : key a = k <;> simp [ha]

/-- Whatever is left was in the sequence. -/
theorem mem_of_mem_latest (h : a ∈ latest key xs) : a ∈ xs := by
  induction xs using List.reverseRecOn with
  | nil => cases h
  | append_singleton xs b ih =>
    rw [latest_concat] at h
    rcases mem_upsert h with rfl | h
    · simp
    · exact mem_append_left _ (ih h)

/-- An item is left if no later one has its key. -/
theorem mem_latest_of_last (h : ∀ b ∈ ys, key b ≠ key a) : a ∈ latest key (xs ++ a :: ys) := by
  induction ys using List.reverseRecOn with
  | nil =>
    rw [latest_concat]
    exact mem_upsert_self key a _
  | append_singleton ys b ih =>
    have hlast : a ∈ latest key (xs ++ a :: ys) := ih fun c hc => h c (mem_append_left _ hc)
    rw [← cons_append, ← append_assoc, latest_concat]
    exact mem_upsert_of_mem hlast (h b (by simp)).symm

theorem nodup_map_key_upsert (h : (xs.map key).Nodup) : ((upsert key a xs).map key).Nodup := by
  by_cases ha : key a ∈ xs.map key
  · rwa [map_key_upsert_of_mem ha]
  · rw [upsert_of_notMem ha, map_append, map_cons, map_nil]
    exact h.append (by simp) (by simpa using ha)

/-- What is left has distinct keys. -/
theorem nodup_map_key_latest (key : α → κ) (xs : List α) : ((latest key xs).map key).Nodup := by
  induction xs using List.reverseRecOn with
  | nil => exact nodup_nil
  | append_singleton xs a ih =>
    rw [latest_concat]
    exact nodup_map_key_upsert ih

theorem length_latest_concat : (latest key (xs ++ [a])).length =
    if key a ∈ xs.map key then (latest key xs).length else (latest key xs).length + 1 := by
  rw [latest_concat, ← length_map (f := key)]
  split
  · next h => rw [map_key_upsert_of_mem (mem_map_key_latest.2 h), length_map]
  · next h => rw [upsert_of_notMem (mt mem_map_key_latest.1 h), map_append]; simp

theorem length_latest_le (key : α → κ) (xs : List α) : (latest key xs).length ≤ xs.length := by
  induction xs using List.reverseRecOn with
  | nil => exact Nat.le_refl _
  | append_singleton xs a ih =>
    rw [length_latest_concat, length_append, length_singleton]
    split <;> omega

/-- Where keys are distinct, nothing is replaced. -/
theorem latest_of_nodup (h : (xs.map key).Nodup) : latest key xs = xs := by
  induction xs using List.reverseRecOn with
  | nil => rfl
  | append_singleton xs a ih =>
    rw [map_append, map_cons, map_nil, nodup_append'] at h
    rw [latest_concat, ih h.1, upsert_of_notMem]
    exact fun ha => h.2.2 ha (mem_singleton_self _)

theorem latest_of_length_le_one (h : xs.length ≤ 1) : latest key xs = xs :=
  latest_of_nodup (pairwise_map.2 (pairwise_of_length_le_one h))

/-- As many items are left as there were exactly if their keys are distinct. -/
theorem length_latest_iff : (latest key xs).length = xs.length ↔ (xs.map key).Nodup := by
  refine ⟨fun h => ?_, fun h => by rw [latest_of_nodup h]⟩
  induction xs using List.reverseRecOn with
  | nil => exact nodup_nil
  | append_singleton xs a ih =>
    have hle := length_latest_le key xs
    rw [length_latest_concat, length_append, length_singleton] at h
    split at h
    · omega
    · next ha =>
      rw [map_append, map_cons, map_nil]
      exact (ih (by omega)).append (nodup_singleton _) (by simpa using ha)

/-- Nothing changes exactly if the keys are distinct. -/
theorem latest_eq_self_iff : latest key xs = xs ↔ (xs.map key).Nodup :=
  ⟨fun h => length_latest_iff.1 (congrArg length h), latest_of_nodup⟩

/-- What is left corresponds to all items, one by one, exactly if nothing is replaced and each item
corresponds. -/
theorem forall₂_map_latest_iff {γ : Type} {R : β → γ → Prop} {f : α → β} {g : α → γ} :
    Forall₂ R ((latest key xs).map f) (xs.map g) ↔
      (xs.map key).Nodup ∧ ∀ a ∈ xs, R (f a) (g a) := by
  constructor
  · intro h
    have hlength := h.length_eq
    rw [length_map, length_map] at hlength
    have hnodup := length_latest_iff.1 hlength
    rw [latest_of_nodup hnodup, forall₂_map_left_iff, forall₂_map_right_iff, forall₂_same] at h
    exact ⟨hnodup, h⟩
  · rintro ⟨hnodup, h⟩
    rw [latest_of_nodup hnodup, forall₂_map_left_iff, forall₂_map_right_iff, forall₂_same]
    exact h

theorem latest_latest (key : α → κ) (xs : List α) : latest key (latest key xs) = latest key xs :=
  latest_of_nodup (nodup_map_key_latest key xs)

theorem latest_eq_nil_iff : latest key xs = [] ↔ xs = [] := by
  constructor
  · intro h
    cases xs with
    | nil => rfl
    | cons a as =>
      have : key a ∈ (latest key (a :: as)).map key := mem_map_key_latest.2 (by simp)
      rw [h] at this
      cases this
  · rintro rfl
    rfl

/-- Sequences without common keys do not disturb each other. -/
theorem latest_append (h : ∀ k ∈ xs.map key, k ∉ ys.map key) :
    latest key (xs ++ ys) = latest key xs ++ latest key ys := by
  induction ys using List.reverseRecOn with
  | nil => simp
  | append_singleton ys a ih =>
    have hys : ∀ k ∈ xs.map key, k ∉ ys.map key := fun k hk hk' =>
      h k hk (by rw [map_append]; exact mem_append_left _ hk')
    rw [← append_assoc, latest_concat, ih hys, latest_concat, upsert_append_of_notMem]
    intro ha
    exact h _ (mem_map_key_latest.1 ha) (by simp)

/-- Sequences that pairwise have no keys in common do not disturb each other. -/
theorem latest_flatMap {zs : List β} {f : β → List α}
    (h : zs.Pairwise fun y z => ∀ k ∈ (f y).map key, k ∉ (f z).map key) :
    latest key (zs.flatMap f) = zs.flatMap fun z => latest key (f z) := by
  induction zs with
  | nil => rfl
  | cons z zs ih =>
    obtain ⟨hz, hzs⟩ := pairwise_cons.1 h
    rw [flatMap_cons, flatMap_cons, latest_append, ih hzs]
    intro k hk hk'
    obtain ⟨a, ha, rfl⟩ := mem_map.1 hk'
    obtain ⟨y, hy, ha⟩ := mem_flatMap.1 ha
    exact hz y hy _ hk (mem_map_of_mem ha)

theorem latest_map {f : β → α} {ys : List β} :
    latest key (ys.map f) = (latest (fun b => key (f b)) ys).map f := by
  induction ys using List.reverseRecOn with
  | nil => rfl
  | append_singleton ys b ih =>
    rw [map_append, map_cons, map_nil, latest_concat, latest_concat, ih, upsert_map]

/-- Only the equality of keys matters, so keys may be exchanged where they tell the same apart. -/
theorem latest_congr {κ' : Type} [DecidableEq κ'] {key' : α → κ'}
    (h : ∀ a ∈ xs, ∀ b ∈ xs, key a = key b ↔ key' a = key' b) : latest key xs = latest key' xs := by
  have upsert_congr (a : α) (ys : List α) (h : ∀ b ∈ ys, key b = key a ↔ key' b = key' a) :
      upsert key a ys = upsert key' a ys := by
    induction ys with
    | nil => rfl
    | cons b bs ih =>
      simp only [upsert, h b mem_cons_self, ih fun c hc => h c (mem_cons_of_mem _ hc)]
  induction xs using List.reverseRecOn with
  | nil => rfl
  | append_singleton xs a ih =>
    have hxs : ∀ b ∈ xs, b ∈ xs ++ [a] := fun b hb => mem_append_left _ hb
    rw [latest_concat, latest_concat, ih fun b hb c hc => h b (hxs b hb) c (hxs c hc)]
    exact upsert_congr a _ fun b hb => h b (hxs b (mem_of_mem_latest hb)) a (by simp)

/-! ### Looking up -/

section Lookup

variable {R : α → α → Prop}

theorem mem_map_key_iff_find? : k ∈ xs.map key ↔ (xs.find? fun a => key a == k).isSome = true := by
  simp [find?_isSome]

theorem find?_key_of_nodup {a : α} (h : (xs.map key).Nodup) (ha : a ∈ xs) :
    (xs.find? fun b => key b == key a) = some a :=
  find?_eq_some_of_unique ha (by simp) fun _ hb hk => eq_of_nodup_map h hb ha (by simpa using hk)

/-- Where keys are distinct on both sides, it is enough to find the items of one side on the other
if there are no more of them: then each key leads to the same on both sides. -/
theorem forall_find?_iff (hxs : (xs.map key).Nodup) (hys : (ys.map key).Nodup) :
    (xs.length = ys.length ∧
        ∀ a ∈ xs, ∃ b, (ys.find? fun b => key b == key a) = some b ∧ R a b) ↔
      ∀ k, Option.Rel R (xs.find? fun a => key a == k) (ys.find? fun b => key b == k) := by
  constructor
  · rintro ⟨hlength, hfound⟩ k
    have hsub : xs.map key ⊆ ys.map key := by
      intro k hk
      obtain ⟨a, ha, rfl⟩ := mem_map.1 hk
      obtain ⟨b, hb, -⟩ := hfound a ha
      exact mem_map_key_iff_find?.2 (Option.isSome_iff_exists.2 ⟨b, hb⟩)
    -- As many distinct keys are all the keys of the other side.
    have hperm : (xs.map key).Perm (ys.map key) :=
      (subperm_of_subset hxs hsub).perm_of_length_le (by simp [hlength])
    cases hx : xs.find? fun a => key a == k with
    | some a =>
      obtain ⟨b, hb, hab⟩ := hfound a (mem_of_find?_eq_some hx)
      have hk : key a = k := by simpa using find?_some hx
      rw [← hk, hb]
      exact .some hab
    | none =>
      have hk : k ∉ ys.map key := by
        rw [← hperm.mem_iff, mem_map_key_iff_find?, hx]
        simp
      rw [mem_map_key_iff_find?, Option.not_isSome_iff_eq_none] at hk
      rw [hk]
      exact .none
  · intro h
    have hkeys (k : κ) : k ∈ xs.map key ↔ k ∈ ys.map key := by
      rw [mem_map_key_iff_find?, mem_map_key_iff_find?]
      have hk := h k
      generalize (xs.find? fun a => key a == k) = x at hk ⊢
      generalize (ys.find? fun b => key b == k) = y at hk ⊢
      cases hk <;> simp
    refine ⟨by simpa using ((perm_ext_iff_of_nodup hxs hys).2 hkeys).length_eq, fun a ha => ?_⟩
    have hrel := h (key a)
    rw [find?_key_of_nodup hxs ha] at hrel
    cases hy : ys.find? fun b => key b == key a with
    | none =>
      rw [hy] at hrel
      cases hrel
    | some b =>
      rw [hy] at hrel
      cases hrel with
      | some hab => exact ⟨b, rfl, hab⟩

end Lookup

end List

namespace YangBinding

/-! ### Children and augmentations -/

theorem Tree.Children.insert_eq (node : Tree.Node) (children : List Tree.Node) :
    Tree.Children.insert node children = List.upsert Tree.Node.key node children := by
  induction children with
  | nil => rfl
  | cons c cs ih => rw [Tree.Children.insert, List.upsert, ih]

theorem Tree.Children.ofList_eq (nodes : List Tree.Node) :
    Tree.Children.ofList nodes = nodes.latest Tree.Node.key := by
  rw [ofList, List.latest]
  exact congrArg (fun f => nodes.foldl f []) (funext fun cs => funext fun c => insert_eq c cs)

theorem Object.insertAugmentation_eq (augmentation : Object) (augmentations : List Object) :
    insertAugmentation augmentation augmentations =
      List.upsert className augmentation augmentations := by
  induction augmentations with
  | nil => rfl
  | cons a as ih => rw [insertAugmentation, List.upsert, ih]

end YangBinding
