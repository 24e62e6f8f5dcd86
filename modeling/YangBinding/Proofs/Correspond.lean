import Mathlib.Data.List.Forall2
import Mathlib.Data.List.Nodup
import Mathlib.Data.Option.Basic

/-!
# Sequences that correspond item by item

Where the items of two sequences belong together one by one, what is known of the items of the one
says something of those of the other.

## Main results

* `List.Forall₂.filterMap` — parts of two sequences correspond if they are picked alike
* `List.forall₂_of_common`, `Option.rel_of_common` — what corresponds to the same corresponds to each
  other
-/

namespace List

variable {α β γ κ : Type} {R : α → β → Prop} {S : α → γ → Prop} {T : β → γ → Prop}
  {xs : List α} {ys : List β} {zs : List γ} {a : α} {b : β}

/-- If each item has something that belongs to it, these make up a sequence. -/
theorem exists_forall₂ (h : ∀ a ∈ xs, ∃ b, R a b) : ∃ ys, Forall₂ R xs ys := by
  induction xs with
  | nil => exact ⟨[], .nil⟩
  | cons a xs ih =>
    obtain ⟨b, hb⟩ := h a mem_cons_self
    obtain ⟨ys, hys⟩ := ih fun a ha => h a (mem_cons_of_mem _ ha)
    exact ⟨b :: ys, .cons hb hys⟩

theorem Forall₂.exists_right (h : Forall₂ R xs ys) (ha : a ∈ xs) : ∃ b ∈ ys, R a b := by
  induction h with
  | nil => cases ha
  | cons hab _ ih =>
    rcases mem_cons.1 ha with rfl | ha
    · exact ⟨_, mem_cons_self, hab⟩
    · obtain ⟨b, hb, hab⟩ := ih ha
      exact ⟨b, mem_cons_of_mem _ hb, hab⟩

theorem Forall₂.exists_left (h : Forall₂ R xs ys) (hb : b ∈ ys) : ∃ a ∈ xs, R a b :=
  h.flip.exists_right hb

theorem Forall₂.exists_getElem? (h : Forall₂ R xs ys) {i : Nat} (ha : xs[i]? = some a) :
    ∃ b, ys[i]? = some b ∧ R a b := by
  induction h generalizing i with
  | nil => cases ha
  | @cons a' b _ _ hab _ ih =>
    cases i with
    | zero =>
      cases ha
      exact ⟨b, rfl, hab⟩
    | succ i => exact ih ha

/-- What corresponds to the same sequence corresponds to each other. -/
theorem forall₂_of_common (hR : Forall₂ R xs ys) (hS : Forall₂ S xs zs)
    (h : ∀ a ∈ xs, ∀ b ∈ ys, ∀ c ∈ zs, R a b → S a c → T b c) : Forall₂ T ys zs := by
  induction hR generalizing zs with
  | nil =>
    cases hS
    exact .nil
  | cons hab _ ih =>
    cases hS with
    | cons hac hS =>
      refine .cons (h _ mem_cons_self _ mem_cons_self _ mem_cons_self hab hac) (ih hS ?_)
      exact fun a ha b hb c hc =>
        h a (mem_cons_of_mem _ ha) b (mem_cons_of_mem _ hb) c (mem_cons_of_mem _ hc)

/-- If of the items of one sequence those are left out to which nothing is picked in the other, the
rest corresponds. -/
theorem Forall₂.filterMap {p : α → Bool} {pick : β → Option γ} (h : Forall₂ R xs ys)
    (hin : ∀ a ∈ xs, ∀ b, R a b → p a = true → ∃ c, pick b = some c ∧ S a c)
    (hout : ∀ a ∈ xs, ∀ b, R a b → p a = false → pick b = none) :
    Forall₂ S (xs.filter p) (ys.filterMap pick) := by
  induction h with
  | nil => exact .nil
  | @cons a b xs ys hab _ ih =>
    have hrest := ih (fun a ha => hin a (mem_cons_of_mem _ ha))
      fun a ha => hout a (mem_cons_of_mem _ ha)
    cases hp : p a with
    | true =>
      obtain ⟨c, hc, hac⟩ := hin a mem_cons_self b hab hp
      rw [filter_cons_of_pos hp, filterMap_cons_some hc]
      exact .cons hac hrest
    | false =>
      rw [filter_cons_of_neg (by simp [hp]), filterMap_cons_none (hout a mem_cons_self b hab hp)]
      exact hrest

/-- Parts of two sequences correspond if they are told apart alike. -/
theorem Forall₂.filter {p : α → Bool} {q : β → Bool} (h : Forall₂ R xs ys)
    (hpq : ∀ a b, R a b → p a = q b) : Forall₂ R (xs.filter p) (ys.filter q) := by
  induction h with
  | nil => exact .nil
  | @cons a b xs ys hab _ ih =>
    cases hp : p a with
    | true =>
      rw [filter_cons_of_pos hp, filter_cons_of_pos (hpq a b hab ▸ hp)]
      exact .cons hab ih
    | false =>
      rw [filter_cons_of_neg (by simp [hp]), filter_cons_of_neg (by simp [← hpq a b hab, hp])]
      exact ih

theorem map_eq_of_forall₂ {f : β → α} (h : Forall₂ R xs ys) (hf : ∀ a b, R a b → f b = a) :
    ys.map f = xs := by
  induction h with
  | nil => rfl
  | cons hab _ ih => rw [map_cons, hf _ _ hab, ih]

/-- Keys are distinct if equal keys come from the same item of a sequence without repetition. -/
theorem Forall₂.nodup_map {key : β → κ} (h : Forall₂ R xs ys) (hn : xs.Nodup)
    (hkey : ∀ a ∈ xs, ∀ a' ∈ xs, ∀ b b', R a b → R a' b' → key b = key b' → a = a') :
    (ys.map key).Nodup := by
  induction h with
  | nil => exact nodup_nil
  | @cons a b xs ys hab hall ih =>
    obtain ⟨ha, hn⟩ := nodup_cons.1 hn
    rw [map_cons, nodup_cons]
    refine ⟨fun hmem => ?_, ih hn fun a ha a' ha' =>
      hkey a (mem_cons_of_mem _ ha) a' (mem_cons_of_mem _ ha')⟩
    obtain ⟨b', hb', heq⟩ := mem_map.1 hmem
    obtain ⟨a', ha', hab'⟩ := hall.exists_left hb'
    exact ha (hkey a mem_cons_self a' (mem_cons_of_mem _ ha') b b' hab hab' heq.symm ▸ ha')

end List

theorem Option.rel_of_common {α β γ : Type} {R : α → β → Prop} {S : α → γ → Prop}
    {T : β → γ → Prop} {x : Option α} {y : Option β} {z : Option γ} (hR : Rel R x y)
    (hS : Rel S x z) (h : ∀ a ∈ x, ∀ b ∈ y, ∀ c ∈ z, R a b → S a c → T b c) : Rel T y z := by
  cases hR with
  | none =>
    cases hS
    exact .none
  | some hab =>
    cases hS with
    | some hac => exact .some (h _ rfl _ rfl _ rfl hab hac)
