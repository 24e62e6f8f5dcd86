import YangBinding.Proofs.Leaf.Integers

/-!
# The values of a type

What a leaf stores is a value of the type of the leaf, and such a value is stored as it is. So
storing a value a second time changes nothing.

## Main definitions

* `Scalar.Holds` — the values of a type

## Main results

* `Scalar.holds_of_store?`, `Scalar.holds_iff` — the values of a type are those that are stored, and
  those that are stored as they are
* `Scalar.holds_default` — a key leaf that has not been set holds a value of its type
-/

namespace YangBinding.Scalar

variable {type : Scalar} {v s : LeafValue}

/-- The values of a type. -/
inductive Holds : Scalar → LeafValue → Prop
  | integer {signed : Bool} {w : Width} {n : Int} (range : InRange signed w n) :
      Holds (integer signed w) (.ofInteger signed n)
  | bool (b : Bool) : Holds .bool (.bool b)
  | string (s : String) : Holds .string (.string s)
  | binary (bytes : List UInt8) : Holds .binary (.binary bytes)
  | empty : Holds .empty .empty

theorem exists_integer (type : Scalar) : (∃ signed w, type = integer signed w) ∨ type = .bool ∨
    type = .string ∨ type = .binary ∨ type = .empty := by
  cases type with
  | signed w => exact .inl ⟨true, w, rfl⟩
  | unsigned w => exact .inl ⟨false, w, rfl⟩
  | _ => simp

/-- What is stored is a value of the type. -/
theorem holds_of_store? (h : type.store? v = some s) : type.Holds s := by
  obtain ⟨signed, w, rfl⟩ | rfl | rfl | rfl | rfl := exists_integer type
  · obtain ⟨n, -, range, rfl⟩ := store?_integer_eq_some_iff.1 h
    exact .integer range
  · cases v with
    | bool b =>
      cases h
      exact .bool b
    | string text =>
      -- Of the texts only those of the two truth values are stored.
      change (if text = "true" then some (LeafValue.bool true)
        else if text = "false" then some (LeafValue.bool false) else none) = some s at h
      split at h
      · cases h
        exact .bool true
      · split at h <;> cases h
        exact .bool false
    | _ => cases h
  · cases v <;> cases h <;> exact .string _
  · cases v <;> cases h
    exact .binary _
  · cases v with
    | empty =>
      cases h
      exact .empty
    | string text =>
      change (if text = "" then some LeafValue.empty else none) = some s at h
      split at h <;> cases h
      exact .empty
    | _ => cases h

/-- The values of a type are those that are stored as they are. -/
theorem holds_iff : type.Holds v ↔ type.store? v = some v := by
  refine ⟨fun h => ?_, holds_of_store?⟩
  cases h with
  | integer range => exact store?_integer_eq_some_iff.2 ⟨_, denotes_ofInteger range, range, rfl⟩
  | _ => rfl

/-- Storing a stored value changes nothing. -/
theorem store?_of_store? (h : type.store? v = some s) : type.store? s = some s :=
  holds_iff.1 (holds_of_store? h)

/-- The value of a key leaf that has not been set is of its type. -/
theorem holds_default (type : Scalar) : type.Holds type.default := by
  cases type with
  | signed w =>
    have range : InRange true w 0 := by cases w <;> decide
    exact .integer range
  | unsigned w =>
    have range : InRange false w 0 := by cases w <;> decide
    exact .integer range
  | bool => exact .bool false
  | string => exact .string ""
  | binary => exact .binary []
  | empty => exact .empty

end YangBinding.Scalar
