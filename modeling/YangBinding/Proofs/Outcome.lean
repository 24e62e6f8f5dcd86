import YangBinding.Proofs.Correspond

/-!
# Outcomes of sequenced operations

What is known of the parts of a computation that may fail once it is known how the whole ended.

## Main results

* `Except.bind_eq_ok_iff`, `Except.bind_eq_error_iff` — a sequence succeeds exactly if both of its
  parts do, and fails with the error of one of them
* `List.mapM_eq_ok_iff` — an operation on all items succeeds exactly if it does on each
* `List.foldlM_keeps` — what every operation of a sequence keeps
* `List.foldlM_reaches` — what one operation of a sequence brings about and all of them keep
* `List.foldlM_eq_ok_iff` — the effects of a sequence are those of its operations, in order
* `Except.Persists.bind`, `List.foldlM_persists` — what comes out of a sequence is still what came
  out before if that is true of its parts
-/

namespace Except

variable {ε α β : Type}

/-- A sequence of two operations succeeds exactly if both of them do. -/
theorem bind_eq_ok_iff {x : Except ε α} {f : α → Except ε β} {b : β} :
    x >>= f = .ok b ↔ ∃ a, x = .ok a ∧ f a = .ok b := by
  cases x <;> simp [bind, Except.bind]

/-- A sequence of two operations fails with an error of the first, or of the second if the first
succeeds. -/
theorem bind_eq_error_iff {x : Except ε α} {f : α → Except ε β} {e : ε} :
    x >>= f = .error e ↔ x = .error e ∨ ∃ a, x = .ok a ∧ f a = .error e := by
  cases x <;> simp [bind, Except.bind]

theorem exists_bind_of_ok {x : Except ε α} {f : α → Except ε β} {a : α} (hx : x = .ok a) :
    (∃ b, x >>= f = .ok b) ↔ ∃ b, f a = .ok b := by
  rw [hx]
  rfl

/-- If it is known what each of two operations needs to succeed, then so it is for the sequence. -/
theorem exists_bind_eq_ok_iff {x : Except ε α} {f : α → Except ε β} {P Q : Prop}
    (hx : (∃ a, x = .ok a) ↔ P) (hf : ∀ a, x = .ok a → ((∃ b, f a = .ok b) ↔ Q)) :
    (∃ b, x >>= f = .ok b) ↔ P ∧ Q := by
  rw [← hx]
  constructor
  · rintro ⟨b, h⟩
    obtain ⟨a, ha, hb⟩ := bind_eq_ok_iff.1 h
    exact ⟨⟨a, ha⟩, (hf a ha).1 ⟨b, hb⟩⟩
  · rintro ⟨⟨a, ha⟩, hq⟩
    obtain ⟨b, hb⟩ := (hf a ha).2 hq
    exact ⟨b, bind_eq_ok_iff.2 ⟨a, ha, hb⟩⟩

theorem map_eq_ok_iff {x : Except ε α} {f : α → β} {b : β} :
    f <$> x = .ok b ↔ ∃ a, x = .ok a ∧ f a = b := by
  cases x <;> simp [Functor.map, Except.map]

theorem toOption_eq_some_iff {x : Except ε α} {a : α} : x.toOption = some a ↔ x = .ok a := by
  cases x <;> simp [Except.toOption]

theorem isSome_toOption_iff {x : Except ε α} : x.toOption.isSome = true ↔ ∃ a, x = .ok a := by
  cases x <;> simp [Except.toOption]

/-! ### The same outcome -/

/-- The outcome is still the same; if `lax`, this is only asked of what has succeeded. -/
def Persists (lax : Prop) (x y : Except ε α) : Prop := x = y ∨ lax ∧ ∃ e, x = .error e

variable {lax : Prop} {x y : Except ε α} {f g : α → Except ε β} {a : α}

theorem Persists.refl (x : Except ε α) : Persists lax x x := .inl rfl

/-- What has succeeded succeeds with the same result. -/
theorem Persists.ok (h : Persists lax x y) (hx : x = .ok a) : y = .ok a := by
  obtain rfl | ⟨-, e, he⟩ := h
  · exact hx
  · cases he.symm.trans hx

/-- If failures persist as well, nothing changes. -/
theorem Persists.eq (h : Persists False x y) : x = y :=
  h.resolve_right fun hlax => hlax.1

/-- A sequence persists if its first part does, and its second part after every success of the
first. -/
theorem Persists.bind (h : Persists lax x y) (hf : ∀ a, Persists lax (f a) (g a)) :
    Persists lax (x >>= f) (y >>= g) := by
  obtain rfl | ⟨hlax, e, rfl⟩ := h
  · cases x with
    | error e => exact .inl rfl
    | ok a => exact hf a
  · exact .inr ⟨hlax, e, rfl⟩

end Except

namespace List

variable {ε α β : Type}

/-- An operation on all items of a list succeeds exactly if it does on each of them. -/
theorem mapM_eq_ok_iff {f : α → Except ε β} {xs : List α} {ys : List β} :
    xs.mapM f = .ok ys ↔ Forall₂ (fun x y => f x = .ok y) xs ys := by
  induction xs generalizing ys with
  | nil =>
    rw [forall₂_nil_left_iff]
    constructor
    · rintro ⟨⟩
      rfl
    · rintro rfl
      rfl
  | cons x xs ih =>
    rw [mapM_cons, Except.bind_eq_ok_iff]
    constructor
    · rintro ⟨y, hy, h⟩
      obtain ⟨ys, hys, h⟩ := Except.bind_eq_ok_iff.1 h
      cases h
      exact .cons hy (ih.1 hys)
    · rintro (_ | ⟨hy, hys⟩)
      exact ⟨_, hy, Except.bind_eq_ok_iff.2 ⟨_, ih.2 hys, rfl⟩⟩

/-- Each result of an operation on all items is that of one of them. -/
theorem exists_of_mapM_eq_ok {f : α → Except ε β} {xs : List α} {ys : List β}
    (h : xs.mapM f = .ok ys) {y : β} (hy : y ∈ ys) : ∃ x ∈ xs, f x = .ok y :=
  (mapM_eq_ok_iff.1 h).exists_left hy

/-- An operation on all items fails with the error of one of them. -/
theorem exists_of_mapM_eq_error {f : α → Except ε β} {xs : List α} {e : ε}
    (h : xs.mapM f = .error e) : ∃ x ∈ xs, f x = .error e := by
  induction xs with
  | nil => cases h
  | cons x xs ih =>
    rw [mapM_cons, Except.bind_eq_error_iff] at h
    obtain hx | ⟨y, -, h⟩ := h
    · exact ⟨x, mem_cons_self, hx⟩
    · obtain hxs | ⟨ys, -, ⟨⟩⟩ := Except.bind_eq_error_iff.1 h
      obtain ⟨z, hz, he⟩ := ih hxs
      exact ⟨z, mem_cons_of_mem x hz, he⟩

/-- Each item has its result among those of all items. -/
theorem exists_mem_of_mapM_eq_ok {f : α → Except ε β} {xs : List α} {ys : List β}
    (h : xs.mapM f = .ok ys) {x : α} (hx : x ∈ xs) : ∃ y ∈ ys, f x = .ok y :=
  (mapM_eq_ok_iff.1 h).exists_right hx

/-- An operation that succeeds on each item succeeds on all of them. -/
theorem exists_mapM_eq_ok {f : α → Except ε β} {xs : List α} (h : ∀ x ∈ xs, ∃ y, f x = .ok y) :
    ∃ ys, xs.mapM f = .ok ys := by
  obtain ⟨ys, hys⟩ := exists_forall₂ h
  exact ⟨ys, mapM_eq_ok_iff.2 hys⟩

section Fold

variable {f : β → α → Except ε β} {P : β → Prop} {xs : List α} {b b' : β}

/-- What every operation of a sequence keeps, the whole sequence keeps. -/
theorem foldlM_keeps (hstep : ∀ x ∈ xs, ∀ b b', P b → f b x = .ok b' → P b') (hb : P b)
    (h : xs.foldlM f b = .ok b') : P b' := by
  induction xs generalizing b with
  | nil =>
    cases h
    exact hb
  | cons x xs ih =>
    obtain ⟨c, hc, h⟩ := Except.bind_eq_ok_iff.1 h
    exact ih (fun y hy => hstep y (mem_cons_of_mem _ hy)) (hstep x mem_cons_self b c hb hc) h

/-- What one operation of a sequence brings about and all later ones keep holds in the end. -/
theorem foldlM_reaches {I : β → Prop} (hinv : ∀ x ∈ xs, ∀ b b', I b → f b x = .ok b' → I b') (hb : I b)
    {x : α} (hx : x ∈ xs) (hreach : ∀ b b', I b → f b x = .ok b' → P b')
    (hstep : ∀ y ∈ xs, ∀ b b', I b → P b → f b y = .ok b' → P b')
    (h : xs.foldlM f b = .ok b') : P b' := by
  induction xs generalizing b with
  | nil => cases hx
  | cons y xs ih =>
    obtain ⟨c, hc, hrest⟩ := Except.bind_eq_ok_iff.1 h
    have hinv' : ∀ x ∈ xs, ∀ b b', I b → f b x = .ok b' → I b' :=
      fun x hx => hinv x (mem_cons_of_mem _ hx)
    have hstep' : ∀ y ∈ xs, ∀ b b', I b → P b → f b y = .ok b' → P b' :=
      fun y hy => hstep y (mem_cons_of_mem _ hy)
    have hic : I c := hinv y mem_cons_self b c hb hc
    rcases mem_cons.1 hx with rfl | hx
    · have hboth : I b' ∧ P b' := foldlM_keeps (P := fun b => I b ∧ P b)
        (fun z hz d d' hd hf => ⟨hinv' z hz d d' hd.1 hf, hstep' z hz d d' hd.1 hd.2 hf⟩)
        ⟨hic, hreach b c hb hc⟩ hrest
      exact hboth.2
    · exact ih hinv' hic hx hstep' hrest

/-- A sequence succeeds exactly if each of its operations has an effect; the outcome is that of the
effects, one after the other. -/
theorem foldlM_eq_ok_iff {γ : Type} {R : α → γ → Prop} {apply : β → γ → β} {I : β → Prop}
    (hstep : ∀ b, I b → ∀ x b', f b x = .ok b' ↔ ∃ c, R x c ∧ apply b c = b')
    (hinv : ∀ b c, I b → I (apply b c)) (hb : I b) :
    xs.foldlM f b = .ok b' ↔ ∃ cs, Forall₂ R xs cs ∧ cs.foldl apply b = b' := by
  induction xs generalizing b with
  | nil =>
    constructor
    · rintro ⟨⟩
      exact ⟨[], .nil, rfl⟩
    · rintro ⟨_, ⟨⟩, rfl⟩
      rfl
  | cons x xs ih =>
    rw [foldlM_cons, Except.bind_eq_ok_iff]
    constructor
    · rintro ⟨b₁, h₁, h⟩
      obtain ⟨c, hc, rfl⟩ := (hstep b hb x b₁).1 h₁
      obtain ⟨cs, hcs, h⟩ := (ih (hinv b c hb)).1 h
      exact ⟨c :: cs, .cons hc hcs, h⟩
    · rintro ⟨_, _ | ⟨hc, hcs⟩, h⟩
      exact ⟨_, (hstep b hb x _).2 ⟨_, hc, rfl⟩, (ih (hinv b _ hb)).2 ⟨_, hcs, h⟩⟩

end Fold

section Persists

variable {lax : Prop} {xs : List α}

/-- A sequence of operations persists if each of them does, whatever it is applied to. -/
theorem foldlM_persists {f g : β → α → Except ε β}
    (h : ∀ x ∈ xs, ∀ b, Except.Persists lax (f b x) (g b x)) (b : β) :
    Except.Persists lax (xs.foldlM f b) (xs.foldlM g b) := by
  induction xs generalizing b with
  | nil => exact .refl _
  | cons x xs ih =>
    rw [foldlM_cons, foldlM_cons]
    exact (h x mem_cons_self b).bind (ih fun y hy => h y (mem_cons_of_mem _ hy))

end Persists

end List
