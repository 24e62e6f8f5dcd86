import YangBinding.Object.Key
import YangBinding.Proofs.Leaf.Values

/-!
# Canonical texts

A textual format hands every value over as its canonical text. The text of an integer denotes it,
and the types of truth values, texts and nothing know their texts too, so that a leaf stores the
value whose text it is given. Bytes are the exception: they have a canonical text, but a leaf of
bytes takes no text at all.

## Main results

* `Scalar.store_text` — except for bytes, the canonical text of a value of a type is stored as the
  value, in fields and in keys
-/

namespace YangBinding

namespace Scalar

variable {signed : Bool} {w : Width} {n : Int} {type : Scalar} {v : LeafValue}

/-- The canonical text of an integer denotes the integer. -/
theorem denotes_text (range : InRange signed w n) :
    (LeafValue.string (LeafValue.ofInteger signed n).text).Denotes signed n := by
  have text : (LeafValue.ofInteger signed n).text = toString n := by
    cases signed with
    | true => exact congrArg toString (toInt_ofInt range)
    | false =>
      change toString (UInt64.ofInt n).toNat = _
      exact congrArg (fun z : Int => toString z) (toNat_ofInt range)
  -- An unsigned type reads no minus sign, and its integers have none.
  have sign : signed = true ∨ 0 ≤ n := by
    cases signed with
    | true => exact .inl rfl
    | false => exact .inr (inRange_unsigned.1 range).1
  rw [text]
  exact .string ⟨[], [], by simp, by simp, by simp⟩ (Text.integral_toString sign)

/-- Except for bytes, the canonical text of a value of a type is stored as the value. -/
theorem store?_text (h : type.Holds v) (hb : type ≠ .binary) :
    type.store? (.string v.text) = some v := by
  cases h with
  | integer range => exact store?_integer_eq_some_iff.2 ⟨_, denotes_text range, range, rfl⟩
  | bool b => cases b <;> rfl
  | string s => rfl
  | binary bytes => exact absurd rfl hb
  | empty => rfl

/-- A leaf stores the value of its type whose canonical text it is given, unless it holds bytes:
then no text is valid. So a text is as good as the value where a field or a key is set. -/
theorem store_text (h : type.Holds v) :
    (type.store (.string v.text) =
      if type = .binary then .error (.invalidValue (.string v.text) .binary) else .ok v) ∧
    (type ≠ .binary →
      (∀ (f : Field) (o : Object), f.setLeaf type (.string v.text) o = f.setLeaf type v o ∧
        f.pushLeaf type (.string v.text) o = f.pushLeaf type v o) ∧
      ∀ (leaf : KeyField) (key : Key), leaf.type = type →
        key.set leaf (.string v.text) = key.set leaf v) := by
  have hsame (hb : type ≠ .binary) : type.store (.string v.text) = type.store v := by
    rw [store_eq_ok_iff.2 (store?_text h hb), store_eq_ok_iff.2 (holds_iff.1 h)]
  refine ⟨?_, fun hb => ⟨fun f o => ⟨?_, ?_⟩, ?_⟩⟩
  · split
    · next hb =>
      subst hb
      rfl
    · next hb => exact store_eq_ok_iff.2 (store?_text h hb)
  · rw [Field.setLeaf, Field.setLeaf, hsame hb]
  · rw [Field.pushLeaf, Field.pushLeaf, hsame hb]
  · rintro leaf key rfl
    rw [Key.set, Key.set, hsame hb]

end Scalar

/-- The least integer of eight bits is stored from its text. -/
theorem store_text_least : Scalar.Holds (.signed .w8) (.int (-128)) ∧
    Scalar.store (.signed .w8) (.string "-128") = .ok (.int (-128)) := by
  have holds : Scalar.Holds (.signed .w8) (.int (-128)) := Scalar.holds_iff.2 (by decide)
  obtain ⟨hstored, -⟩ := Scalar.store_text holds
  exact ⟨holds, hstored⟩

/-- Bytes are not stored from their text. -/
theorem text_refused_bytes : Scalar.Holds .binary (.binary [0x0a, 0xff]) ∧
    (LeafValue.binary [0x0a, 0xff]).text = "0aff" ∧
    Scalar.store .binary (.string "0aff") = .error (.invalidValue (.string "0aff") .binary) :=
  ⟨.binary _, by decide +kernel, rfl⟩

end YangBinding
