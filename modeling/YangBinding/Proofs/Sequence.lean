import Mathlib.Data.List.Forall2
import Mathlib.Data.List.Nodup

/-!
# Finding things in sequences

A search finds the one item that passes a test, wherever it stands.

## Main results

* `List.find?_eq_some_of_unique` — a search finds the only item that passes
* `List.Perm.filter_flatMap_eq` — what comes from one item only does not depend on the order of the
  items
* `List.eq_of_nodup_filterMap` — distinct results come from distinct items
-/

namespace List

variable {α β : Type} {xs : List α} {a b : α}

/-- A search finds an item that passes if no other does. -/
theorem find?_eq_some_of_unique {p : α → Bool} (ha : a ∈ xs) (hp : p a = true)
    (h : ∀ b ∈ xs, p b = true → b = a) : xs.find? p = some a := by
  obtain ⟨b, hb⟩ := Option.isSome_iff_exists.1 (List.find?_isSome.2 ⟨a, ha, hp⟩)
  rw [hb, h b (List.mem_of_find?_eq_some hb) (List.find?_some hb)]

/-- What a search finds, a stricter search finds too if it lets it pass. -/
theorem find?_eq_some_of_imp {p q : α → Bool} (h : xs.find? p = some a)
    (hpq : ∀ b ∈ xs, q b = true → p b = true) (ha : q a = true) : xs.find? q = some a := by
  obtain ⟨-, before, after, rfl, hbefore⟩ := List.find?_eq_some_iff_append.1 h
  refine List.find?_eq_some_iff_append.2 ⟨ha, before, after, rfl, fun b hb => ?_⟩
  by_contra hq
  have hp := hpq b (List.mem_append_left _ hb) (by simpa using hq)
  simpa [hp] using hbefore b hb

theorem findSome?_congr {f g : α → Option β} (h : ∀ a ∈ xs, f a = g a) :
    xs.findSome? f = xs.findSome? g := by
  induction xs with
  | nil => rfl
  | cons a xs ih =>
    rw [List.findSome?_cons, List.findSome?_cons, h a List.mem_cons_self,
      ih fun b hb => h b (List.mem_cons_of_mem _ hb)]

theorem findSome?_filterMap {γ : Type} (f : β → Option γ) (g : α → Option β) (xs : List α) :
    (xs.filterMap g).findSome? f = xs.findSome? fun a => (g a).bind f := by
  induction xs with
  | nil => rfl
  | cons a xs ih => cases ha : g a <;> simp [findSome?_cons, ha, ih]

/-- What leads to nothing does not count for a search. -/
theorem findSome?_filter_isSome (f : α → Option β) (xs : List α) :
    (xs.filter fun a => (f a).isSome).findSome? f = xs.findSome? f := by
  induction xs with
  | nil => rfl
  | cons a xs ih =>
    cases ha : f a with
    | none => rw [filter_cons_of_neg (by simp [ha]), ih, findSome?_cons, ha]
    | some b => rw [filter_cons_of_pos (by simp [ha]), findSome?_cons, findSome?_cons, ha]

/-- Where at most one item passes a test, it passes in whatever order the items come. -/
theorem Perm.filter_eq {ys : List α} {p : α → Bool} (h : xs.Perm ys)
    (hp : xs.Pairwise fun a b => p a = true → p b = false) : xs.filter p = ys.filter p := by
  have hperm := h.filter p
  have hone : (xs.filter p).Pairwise fun _ _ => False :=
    (hp.filter p).imp_of_mem fun ha hb hab => by
      simp [hab (List.mem_filter.1 ha).2] at hb
  cases hxs : xs.filter p with
  | nil =>
    rw [hxs] at hperm
    exact hperm.nil_eq
  | cons a as =>
    rw [hxs] at hone hperm
    obtain rfl : as = [] := List.eq_nil_iff_forall_not_mem.2 (List.pairwise_cons.1 hone).1
    exact hperm.singleton_eq

/-- Where what passes a test comes from at most one item, it comes in whatever order the items do.
-/
theorem Perm.filter_flatMap_eq {ys : List α} {f : α → List β} {p : β → Bool} (h : xs.Perm ys)
    (hp : xs.Pairwise fun a b => ∀ c ∈ f a, ∀ d ∈ f b, p c = true → p d = false) :
    (xs.flatMap f).filter p = (ys.flatMap f).filter p := by
  have hsources (xs : List α) : (xs.flatMap f).filter p =
      (xs.filter fun a => (f a).any p).flatMap fun a => (f a).filter p := by
    induction xs with
    | nil => rfl
    | cons a xs ih =>
      rw [flatMap_cons, filter_append, ih]
      cases ha : (f a).any p with
      | true => rw [filter_cons_of_pos (by simp [ha]), flatMap_cons]
      | false =>
        rw [filter_cons_of_neg (by simp [ha]), filter_eq_nil_iff.2 (by simpa using ha), nil_append]
  rw [hsources, hsources, h.filter_eq]
  refine hp.imp fun {a b} hab ha => ?_
  obtain ⟨c, hc, hpc⟩ := List.any_eq_true.1 ha
  exact List.any_eq_false.2 fun d hd => by simp [hab c hc d hd hpc]

/-- Where results are distinct, the same result comes from the same item. -/
theorem eq_of_nodup_filterMap {f : α → Option β} {c : β} (hn : (xs.filterMap f).Nodup)
    (ha : a ∈ xs) (hb : b ∈ xs) (hfa : f a = some c) (hfb : f b = some c) : a = b := by
  induction xs with
  | nil => cases ha
  | cons x xs ih =>
    have later {y : α} (hx : f x = some c) (hy : y ∈ xs) (hfy : f y = some c) : False := by
      rw [List.filterMap_cons_some hx, List.nodup_cons] at hn
      exact hn.1 (List.mem_filterMap.2 ⟨y, hy, hfy⟩)
    rcases List.mem_cons.1 ha with rfl | ha'
    · rcases List.mem_cons.1 hb with rfl | hb'
      · rfl
      · exact (later hfa hb' hfb).elim
    · rcases List.mem_cons.1 hb with rfl | hb'
      · exact (later hfb ha' hfa).elim
      · refine ih ?_ ha' hb'
        cases hx : f x with
        | none => rwa [List.filterMap_cons_none hx] at hn
        | some y => exact (List.nodup_cons.1 (List.filterMap_cons_some hx ▸ hn)).2

/-- Among items with distinct keys just one has a key. -/
theorem filter_key_eq_singleton [DecidableEq β] {key : α → β} (hn : (xs.map key).Nodup)
    (ha : a ∈ xs) : (xs.filter fun b => key b = key a) = [a] := by
  induction xs with
  | nil => cases ha
  | cons x xs ih =>
    obtain ⟨hx, hn⟩ := List.nodup_cons.1 hn
    rcases List.mem_cons.1 ha with rfl | ha'
    · rw [List.filter_cons_of_pos (by simp), List.filter_eq_nil_iff.2]
      intro b hb heq
      exact hx (List.mem_map.2 ⟨b, hb, by simpa using heq⟩)
    · have hne : key x ≠ key a := fun heq => hx (heq ▸ List.mem_map_of_mem ha')
      rw [List.filter_cons_of_neg (by simpa using hne), ih hn ha']

/-- Items with the same key are the same where keys are distinct. -/
theorem eq_of_nodup_map {key : α → β} (hn : (xs.map key).Nodup) (ha : a ∈ xs) (hb : b ∈ xs)
    (h : key a = key b) : a = b :=
  List.inj_on_of_nodup_map hn ha hb h

/-- Among entries with distinct keys, a look-up finds the one made of an item. -/
theorem lookup_map_of_nodup {κ : Type} [BEq κ] [LawfulBEq κ] {key : α → κ} {value : α → β}
    (hn : (xs.map key).Nodup) (ha : a ∈ xs) :
    (xs.map fun x => (key x, value x)).lookup (key a) = some (value a) := by
  induction xs with
  | nil => cases ha
  | cons x xs ih =>
    obtain ⟨hx, hn⟩ := List.nodup_cons.1 hn
    rw [List.map_cons, List.lookup_cons]
    rcases List.mem_cons.1 ha with rfl | ha'
    · simp
    · have hne : key a ≠ key x := fun heq => hx (heq ▸ List.mem_map_of_mem ha')
      simp [beq_eq_false_iff_ne.2 hne, ih hn ha']

/-- Whether a look-up finds something is a matter of the key alone if the value is. -/
theorem lookup_map_of_mem {κ : Type} [BEq κ] [LawfulBEq κ] [DecidableEq κ] {value : κ → β}
    {keys : List κ} {k : κ} :
    (keys.map fun k => (k, value k)).lookup k = if k ∈ keys then some (value k) else none := by
  induction keys with
  | nil => rfl
  | cons k' keys ih =>
    rw [List.map_cons, List.lookup_cons, ih]
    by_cases hk : k = k'
    · subst hk
      simp
    · simp [beq_eq_false_iff_ne.2 hk, hk]

/-- If just one of distinct items yields anything, that is all there is. -/
theorem flatMap_eq_of_unique {f : α → List β} (hn : xs.Nodup) (ha : a ∈ xs)
    (h : ∀ b ∈ xs, b ≠ a → f b = []) : xs.flatMap f = f a := by
  obtain ⟨before, after, rfl⟩ := List.append_of_mem ha
  have hnot := List.nodup_middle.1 hn
  obtain ⟨hnot, -⟩ := List.nodup_cons.1 hnot
  have hbefore : before.flatMap f = [] := List.flatMap_eq_nil_iff.2 fun b hb =>
    h b (by simp [hb]) fun hba => hnot (by simp [← hba, hb])
  have hafter : after.flatMap f = [] := List.flatMap_eq_nil_iff.2 fun b hb =>
    h b (by simp [hb]) fun hba => hnot (by simp [← hba, hb])
  rw [List.flatMap_append, List.flatMap_cons, hbefore, hafter, List.nil_append, List.append_nil]

/-- A sequence without repetition that has no other items than one is that item alone. -/
theorem eq_singleton_of_unique (hn : xs.Nodup) (ha : a ∈ xs) (h : ∀ b ∈ xs, b = a) : xs = [a] := by
  cases xs with
  | nil => cases ha
  | cons b bs =>
    obtain rfl := h b mem_cons_self
    have hbs : bs = [] := eq_nil_iff_forall_not_mem.2 fun c hc =>
      (nodup_cons.1 hn).1 (h c (mem_cons_of_mem _ hc) ▸ hc)
    rw [hbs]

/-- Two orders of items that are all the same are one. -/
theorem eq_of_perm_of_unique {ys : List α} (h : xs.Perm ys) (hn : xs.Nodup)
    (heq : ∀ a ∈ xs, ∀ b ∈ xs, a = b) : xs = ys := by
  cases xs with
  | nil => exact (nil_perm.1 h).symm
  | cons a xs =>
    have hxs : a :: xs = [a] :=
      eq_singleton_of_unique hn mem_cons_self fun b hb => heq b hb a mem_cons_self
    rw [hxs] at h ⊢
    exact singleton_perm.1 h

/-- Of no two items there is anything to show. -/
theorem pairwise_of_length_le_one {R : α → α → Prop} (h : xs.length ≤ 1) : xs.Pairwise R := by
  rcases xs with _ | ⟨a, _ | ⟨b, rest⟩⟩
  · exact .nil
  · exact pairwise_singleton R a
  · simp at h

/-- Items that are left out yield nothing. -/
theorem flatMap_filter_eq {p : α → Bool} {f : α → List β} :
    (xs.filter p).flatMap f = xs.flatMap fun a => if p a then f a else [] := by
  induction xs with
  | nil => rfl
  | cons a xs ih =>
    by_cases ha : p a = true <;> simp [ha, ih]

/-- If every item yields at most what it is mapped to, so do all items in order. -/
theorem flatMap_sublist_map {f : α → List β} {g : α → β} (h : ∀ a ∈ xs, (f a).Sublist [g a]) :
    (xs.flatMap f).Sublist (xs.map g) := by
  induction xs with
  | nil => exact Sublist.refl _
  | cons a xs ih =>
    rw [flatMap_cons, map_cons]
    exact (h a mem_cons_self).append (ih fun b hb => h b (mem_cons_of_mem _ hb))

/-- Sequences correspond, one by one, if all but the last items do, and those. -/
theorem forall₂_concat_iff {R : α → β → Prop} {ys : List β} {b : β} :
    Forall₂ R (xs ++ [a]) (ys ++ [b]) ↔ Forall₂ R xs ys ∧ R a b := by
  rw [← forall₂_reverse_iff, reverse_append, reverse_append, reverse_singleton, reverse_singleton,
    singleton_append, singleton_append, forall₂_cons, forall₂_reverse_iff, and_comm]

end List
