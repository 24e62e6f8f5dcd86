import YangBinding.Json.Record
import YangBinding.Proofs.Sequence

/-!
# How deep values nest

Every array and every object opens a level. A reader that is allowed some number of levels gives a
value exactly if its form needs no more of them; that one condition passes from the parts of a form
to the whole, for arrays, for records and for named variants.

## Main definitions

* `Json.nesting` — the levels that a value needs
* `Json.Reads` — a reader gives a value back where its form does not nest too deep
* `Json.present` — the members of a record of which fields may be left out

## Main results

* `Json.Reads.list` — arrays
* `Json.Reads.both`, `Json.Reads.pair` — records of two fields
* `Json.fields?_present` — a record is found to have the fields that were not left out
-/

namespace YangBinding.Json

variable {α β γ : Type} {read : Reader α} {j k : Json} {x : α} {y : β}

mutual

/-- How deep the arrays and objects of a value nest. -/
def nesting : Json → Nat
  | .array items => 1 + itemNesting items
  | .object members => 1 + memberNesting members
  | _ => 0

/-- How deep the deepest item nests. -/
def itemNesting : List Json → Nat
  | [] => 0
  | item :: items => max item.nesting (itemNesting items)

/-- How deep the deepest member nests. -/
def memberNesting : List (String × Json) → Nat
  | [] => 0
  | (_, value) :: members => max value.nesting (memberNesting members)

end

/-- The reader gives the value if the levels that its form needs may be opened, and nothing
otherwise. -/
def Reads (read : Reader α) (j : Json) (x : α) : Prop :=
  ∀ depth, read depth j = if j.nesting ≤ depth then some x else none

namespace Reads

theorem eq_some {depth : Nat} (h : Reads read j x) (hdepth : j.nesting ≤ depth) :
    read depth j = some x := by
  rw [h depth, if_pos hdepth]

theorem eq_none {depth : Nat} (h : Reads read j x) (hdepth : depth < j.nesting) :
    read depth j = none := by
  rw [h depth, if_neg (by omega)]

/-- A form without arrays and objects is read at any depth. -/
theorem of_flat (hj : j.nesting = 0) (h : ∀ depth, read depth j = some x) : Reads read j x := by
  intro depth
  rw [h depth, if_pos (by omega)]

/-- A form with a level of its own is not read where no level may be opened. -/
theorem of_deep (hj : 0 < j.nesting) (hzero : read 0 j = none)
    (hsucc : ∀ depth, read (depth + 1) j = if j.nesting ≤ depth + 1 then some x else none) :
    Reads read j x := by
  intro depth
  cases depth with
  | zero => rw [hzero, if_neg (by omega)]
  | succ depth => exact hsucc depth

/-- A form that holds one other form, a level further, is read as that one is. -/
theorem wrap {outer : Reader β} (make : α → β) (h : Reads read j x)
    (hnesting : k.nesting = 1 + j.nesting) (hzero : outer 0 k = none)
    (hsucc : ∀ depth, outer (depth + 1) k = (read depth j).map make) :
    Reads outer k (make x) := by
  apply of_deep
  · omega
  · exact hzero
  · intro depth
    rw [hsucc, h depth]
    by_cases hj : j.nesting ≤ depth
    · rw [if_pos hj, if_pos (by omega), Option.map_some]
    · rw [if_neg hj, if_neg (by omega), Option.map_none]

end Reads

theorem reads_string (s : String) : Reads readString (.string s) s :=
  .of_flat rfl fun _ => rfl

theorem nesting_sole (key : String) (j : Json) :
    (Json.object [(key, j)]).nesting = 1 + j.nesting := by
  rw [nesting, memberNesting, memberNesting, Nat.max_zero]

/-! ### Arrays -/

theorem Reads.mapM {form : α → Json} {xs : List α} (h : ∀ x ∈ xs, Reads read (form x) x)
    (depth : Nat) :
    (xs.map form).mapM (read depth) =
      if itemNesting (xs.map form) ≤ depth then some xs else none := by
  induction xs with
  | nil => rfl
  | cons x xs ih =>
    have htail := ih fun y hy => h y (List.mem_cons_of_mem x hy)
    have hnesting : itemNesting (form x :: xs.map form) ≤ depth ↔
        (form x).nesting ≤ depth ∧ itemNesting (xs.map form) ≤ depth := by
      rw [itemNesting]
      omega
    rw [List.map_cons, List.mapM_cons, h x List.mem_cons_self depth, htail]
    by_cases hx : (form x).nesting ≤ depth
    · by_cases hxs : itemNesting (xs.map form) ≤ depth
      · rw [if_pos hx, if_pos hxs, if_pos (hnesting.2 ⟨hx, hxs⟩)]
        rfl
      · rw [if_pos hx, if_neg hxs, if_neg fun hall => hxs (hnesting.1 hall).2]
        rfl
    · rw [if_neg hx, if_neg fun hall => hx (hnesting.1 hall).1]
      rfl

/-- An array is read item by item. -/
theorem Reads.list {form : α → Json} {xs : List α} (h : ∀ x ∈ xs, Reads read (form x) x) :
    Reads (readList read) (.array (xs.map form)) xs := by
  apply Reads.of_deep
  · rw [nesting]
    omega
  · rfl
  · intro depth
    change (xs.map form).mapM (read depth) = _
    rw [Reads.mapM h depth, nesting]
    congr 1
    rw [Nat.add_comm 1, Nat.succ_le_succ_iff]

/-! ### Records -/

/-- A record of two fields is read if both are. -/
theorem Reads.both {read' : Reader β} (h : Reads read j x) (h' : Reads read' k y)
    (make : α → β → γ) (a b : String) (depth : Nat) :
    ((read depth j).bind fun x => (read' depth k).bind fun y => some (make x y)) =
      if (Json.object [(a, j), (b, k)]).nesting ≤ depth + 1 then some (make x y) else none := by
  have hnesting : (Json.object [(a, j), (b, k)]).nesting ≤ depth + 1 ↔
      j.nesting ≤ depth ∧ k.nesting ≤ depth := by
    simp only [nesting, memberNesting]
    omega
  by_cases hj : j.nesting ≤ depth
  · by_cases hk : k.nesting ≤ depth
    · rw [h.eq_some hj, h'.eq_some hk, if_pos (hnesting.2 ⟨hj, hk⟩)]
      rfl
    · rw [h.eq_some hj, h'.eq_none (by omega), if_neg fun hboth => hk (hnesting.1 hboth).2]
      rfl
  · rw [h.eq_none (by omega), if_neg fun hboth => hj (hnesting.1 hboth).1]
    rfl

theorem Reads.pair {read' : Reader β} {record : Reader γ} {a b : String} (make : α → β → γ)
    (h : Reads read j x) (h' : Reads read' k y) (hzero : record 0 (.object [(a, j), (b, k)]) = none)
    (hsucc : ∀ depth, record (depth + 1) (.object [(a, j), (b, k)]) =
      (read depth j).bind fun x => (read' depth k).bind fun y => some (make x y)) :
    Reads record (.object [(a, j), (b, k)]) (make x y) := by
  apply Reads.of_deep
  · rw [nesting]
    omega
  · exact hzero
  · intro depth
    rw [hsucc, h.both h' make a b]

/-! ### Records whose fields may be left out -/

/-- The members of a record: the fields that are not left out. -/
def present (fields : List (String × Option Json)) : List (String × Json) :=
  fields.filterMap fun field => field.2.map fun j => (field.1, j)

variable {fields : List (String × Option Json)} {field : String × Option Json}

theorem filter_present (key : String) (fields : List (String × Option Json)) :
    (present fields).filter (fun m => m.1 == key) =
      present (fields.filter fun field => field.1 == key) := by
  rw [present, present, List.filter_filterMap, List.filterMap_filter]
  congr 1
  funext field
  cases field.2 <;> simp [Option.filter]

theorem uniqueMember?_present (hdistinct : (fields.map Prod.fst).Nodup) (h : field ∈ fields) :
    uniqueMember? (present fields) field.1 = some field.2 := by
  have hsole : fields.filter (fun f => f.1 == field.1) = [field] :=
    List.filter_key_eq_singleton hdistinct h
  rw [uniqueMember?, filter_present, hsole]
  obtain ⟨key, value⟩ := field
  cases value <;> rfl

/-- A record is found to have the fields that were not left out. -/
theorem fields?_present (hdistinct : (fields.map Prod.fst).Nodup) :
    fields? (fields.map Prod.fst) (.object (present fields)) = some (fields.map Prod.snd) := by
  have hall : ∀ part ⊆ fields, (part.map Prod.fst).mapM (uniqueMember? (present fields)) =
      some (part.map Prod.snd) := by
    intro part hsub
    induction part with
    | nil => rfl
    | cons field rest ih =>
      rw [List.map_cons, List.mapM_cons,
        uniqueMember?_present hdistinct (hsub List.mem_cons_self),
        ih fun f hf => hsub (List.mem_cons_of_mem field hf)]
      rfl
  exact hall fields fun _ => id

theorem memberNesting_present_nil : memberNesting (present []) = 0 :=
  rfl

theorem memberNesting_present_cons (key : String) (value : Option Json)
    (fields : List (String × Option Json)) :
    memberNesting (present ((key, value) :: fields)) =
      max (value.elim 0 nesting) (memberNesting (present fields)) := by
  cases value with
  | none => simp [present]
  | some j => simp [present, memberNesting]

/-- A string that may be left out opens no level. -/
theorem nesting_optional_string (s : Option String) : (s.map Json.string).elim 0 nesting = 0 := by
  cases s <;> rfl

theorem optional_string (s : Option String) : optional string? (s.map .string) = some s := by
  cases s <;> rfl

end YangBinding.Json
