import YangBinding.Object.Field
import YangBinding.Proofs.Text.Integers

/-!
# Integers in leaves

An integer type is signed or not and has a width, which gives it a range. A leaf of the type stores
the integer that a value denotes, be it a number of either carrier or a text, if the integer lies in
that range. Carriers have 64 bits, as many as the widest types, so that no integer is changed on the
way.

## Main definitions

* `LeafValue.Denotes` — a value stands for an integer
* `Scalar.InRange` — an integer is one of an integer type
* `LeafValue.ofInteger` — the value that a leaf of an integer type stores for an integer

## Main results

* `Scalar.integerOf?_eq_some_iff` — the integer of a value is the one that it denotes
* `Scalar.store?_integer` — of the integer types one is like the other
* `Scalar.store_integer` — exactly the values that denote an integer in range are stored, as this
  integer
-/

namespace YangBinding

variable {signed : Bool} {w : Width} {n m : Int} {v : LeafValue}

/-- A value stands for an integer: a number for itself, a text for what it denotes between blanks.
Only where integers are signed a text may have a minus sign. -/
inductive LeafValue.Denotes (signed : Bool) : LeafValue → Int → Prop
  | int (k : Int64) : Denotes signed (.int k) k.toInt
  | uint (k : UInt64) : Denotes signed (.uint k) k.toNat
  | string {s : String} {core : List Char} {n : Int} (padded : Text.Padded s.toList core)
      (integral : Text.Integral signed core n) : Denotes signed (.string s) n

/-- The value that a leaf of an integer type stores for an integer. -/
def LeafValue.ofInteger (signed : Bool) (n : Int) : LeafValue :=
  if signed then .int (Int64.ofInt n) else .uint (UInt64.ofInt n)

namespace Scalar

/-- The integer type of a width. -/
def integer (signed : Bool) (w : Width) : Scalar :=
  if signed then .signed w else .unsigned w

/-- The integers of a type: half of its values are negative if it is signed, none otherwise. -/
def InRange (signed : Bool) (w : Width) (n : Int) : Prop :=
  if signed then -2 ^ (w.bits - 1) ≤ n ∧ n < 2 ^ (w.bits - 1) else 0 ≤ n ∧ n < 2 ^ w.bits

instance (signed : Bool) (w : Width) (n : Int) : Decidable (InRange signed w n) :=
  inferInstanceAs (Decidable (if signed then _ else _))

/-- The integer of a value is the one that it denotes. -/
theorem integerOf?_eq_some_iff : integerOf? signed v = some n ↔ v.Denotes signed n := by
  constructor
  · intro h
    cases v with
    | int k =>
      cases h
      exact .int k
    | uint k =>
      cases h
      exact .uint k
    | string s =>
      obtain ⟨core, hpadded, hcore⟩ := Text.integer?_trim_eq_some_iff.1 h
      exact .string hpadded hcore
    | _ => cases h
  · intro h
    cases h with
    | int k => rfl
    | uint k => rfl
    | string hpadded hcore => exact Text.integer?_trim_eq_some_iff.2 ⟨_, hpadded, hcore⟩

/-! ### Ranges -/

theorem inRange_signed : InRange true w n ↔ FitsSigned w n := by
  cases w <;> simp [InRange, FitsSigned, Width.bits, Width.half]

theorem inRange_unsigned : InRange false w n ↔ FitsUnsigned w n := by
  cases w <;> simp [InRange, FitsUnsigned, Width.bits, Width.half]

theorem toInt_ofInt (h : InRange true w n) : (Int64.ofInt n).toInt = n := by
  have hfits := inRange_signed.1 h
  refine Int64.toInt_ofInt_of_le ?_ ?_ <;> cases w <;>
    simp only [FitsSigned, Width.half] at hfits <;> omega

theorem toNat_ofInt (h : InRange false w n) : ((UInt64.ofInt n).toNat : Int) = n := by
  have hfits := inRange_unsigned.1 h
  have hrange : 0 ≤ n ∧ n < 2 ^ 64 := by
    cases w <;> simp only [FitsUnsigned, Width.half] at hfits <;> omega
  rw [UInt64.ofInt, UInt64.toNat_ofNat', Int.emod_eq_of_lt hrange.1 hrange.2]
  omega

/-- What is stored for an integer in range stands for it. -/
theorem denotes_ofInteger (h : InRange signed w n) :
    (LeafValue.ofInteger signed n).Denotes signed n := by
  cases signed with
  | true =>
    have hint : (LeafValue.int (Int64.ofInt n)).Denotes true _ := .int _
    rwa [toInt_ofInt h] at hint
  | false =>
    have huint : (LeafValue.uint (UInt64.ofInt n)).Denotes false _ := .uint _
    rwa [toNat_ofInt h] at huint

theorem denotes_unique (hn : v.Denotes signed n) (hm : v.Denotes signed m) : n = m :=
  Option.some.inj ((integerOf?_eq_some_iff.2 hn).symm.trans (integerOf?_eq_some_iff.2 hm))

/-! ### Storing -/

/-- Whether it is signed or not, a type stores the integer of a value if it is in range. -/
theorem store?_integer (signed : Bool) (w : Width) (v : LeafValue) :
    (integer signed w).store? v = (integerOf? signed v).bind fun n =>
      if InRange signed w n then some (.ofInteger signed n) else none := by
  cases signed with
  | true =>
    simp only [inRange_signed]
    rfl
  | false =>
    simp only [inRange_unsigned]
    rfl

theorem store?_integer_eq_some_iff {s : LeafValue} : (integer signed w).store? v = some s ↔
    ∃ n, v.Denotes signed n ∧ InRange signed w n ∧ s = .ofInteger signed n := by
  simp only [store?_integer, Option.bind_eq_some_iff, integerOf?_eq_some_iff,
    Option.ite_none_right_eq_some, Option.some.injEq, @eq_comm _ _ s]

theorem store_eq_ok_iff {type : Scalar} {s : LeafValue} :
    type.store v = .ok s ↔ type.store? v = some s := by
  rw [store]
  split <;> simp_all

theorem store_eq_error_iff {type : Scalar} :
    type.store v = .error (.invalidValue v type) ↔ type.store? v = none := by
  rw [store]
  split <;> simp_all

/-- A leaf of an integer type stores an integer of its range exactly for the values that denote it.
Values that denote no such integer are invalid. An integer of the range is stored as a value that
denotes it, and this value is stored again as it is. -/
theorem store_integer (signed : Bool) (w : Width) (v : LeafValue) :
    (∀ n, InRange signed w n →
      ((integer signed w).store v = .ok (.ofInteger signed n) ↔ v.Denotes signed n)) ∧
    ((integer signed w).store v = .error (.invalidValue v (integer signed w)) ↔
      ∀ n, v.Denotes signed n → ¬InRange signed w n) ∧
    ∀ n, InRange signed w n → (LeafValue.ofInteger signed n).Denotes signed n ∧
      (integer signed w).store (.ofInteger signed n) = .ok (.ofInteger signed n) := by
  refine ⟨?_, ?_, ?_⟩
  · intro n hn
    rw [store_eq_ok_iff, store?_integer_eq_some_iff]
    constructor
    · rintro ⟨m, hdenotes, hm, heq⟩
      -- The same stored value stands for one integer only.
      rwa [denotes_unique (denotes_ofInteger hn) (heq ▸ denotes_ofInteger hm)]
    · exact fun hdenotes => ⟨n, hdenotes, hn, rfl⟩
  · rw [store_eq_error_iff, Option.eq_none_iff_forall_ne_some]
    constructor
    · exact fun hnone n hdenotes hn =>
        hnone _ (store?_integer_eq_some_iff.2 ⟨n, hdenotes, hn, rfl⟩)
    · intro hnone s hs
      obtain ⟨n, hdenotes, hn, -⟩ := store?_integer_eq_some_iff.1 hs
      exact hnone n hdenotes hn
  · intro n hn
    have hdenotes := denotes_ofInteger hn
    exact ⟨hdenotes, store_eq_ok_iff.2 (store?_integer_eq_some_iff.2 ⟨n, hdenotes, hn, rfl⟩)⟩

end Scalar

/-- The greatest integer of eight bits is read from a text with a sign, a leading zero, and a
no-break space in front. The next one is out of range. -/
theorem store_integer_greatest : Scalar.InRange false .w8 255 ∧
    (Scalar.integer false .w8).store (.string "\u00a0+0255 ") = .ok (.uint 255) ∧
    (Scalar.integer false .w8).store (.int 256) =
      .error (.invalidValue (.int 256) (.unsigned .w8)) := by
  have hrange : Scalar.InRange false .w8 255 := by decide
  have hdigits : Text.Decimal ['0', '2', '5', '5'] 255 :=
    (((Text.Decimal.digit (d := 0) (by decide)).concat (d := 2) (by decide)).concat
      (d := 5) (by decide)).concat (d := 5) (by decide)
  have hdenotes : (LeafValue.string "\u00a0+0255 ").Denotes false 255 :=
    .string ⟨['\u00a0'], [' '], by decide +kernel, List.forall_mem_singleton.2 (by decide),
      List.forall_mem_singleton.2 (by decide)⟩ (.plus hdigits)
  obtain ⟨hstored, -, -⟩ := Scalar.store_integer false .w8 (.string "\u00a0+0255 ")
  obtain ⟨-, hinvalid, -⟩ := Scalar.store_integer false .w8 (.int 256)
  refine ⟨hrange, (hstored 255 hrange).2 hdenotes, hinvalid.2 ?_⟩
  rintro _ ⟨⟩
  decide

end YangBinding
