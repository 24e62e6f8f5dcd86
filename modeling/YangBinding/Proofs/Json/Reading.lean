import YangBinding.Proofs.Json.Lexeme

/-!
# Written values are read back

A value is written, in either layout, as the characters of one sequence of tokens, and that sequence
spells the value and no other. What has no text of its own, a numeral kept as its literal or a broken
literal, is left out: a plain value has neither, and its integers are of 64 bits.

## Main definitions

* `Json.Plain` — a value that its text denotes
* `Json.tokens` — the tokens of the text of a value

## Main results

* `Json.Plain.spells` — a layout adds and loses no token
* `Json.Plain.denotes` — the tokens of a value spell the value
* `Json.Plain.ofBytes?_write` — the bytes of the text of a value denote the value
-/

namespace YangBinding.Json

open Token

variable {c : Char} {cs ds : List Char} {t : Token} {ts us : List Token} {item : Json}
  {items : List Json} {members : List (String × Json)}

/-- A value that its text denotes: every number in it is an integer of 64 bits, signed or unsigned,
and no part of it is broken. -/
inductive Plain : Json → Prop where
  | null : Plain .null
  | bool (b : Bool) : Plain (.bool b)
  | integer {z : Int} (hlow : -9223372036854775808 ≤ z) (hhigh : z < 18446744073709551616) :
      Plain (.integer z)
  | string (s : String) : Plain (.string s)
  | array {items : List Json} (h : ∀ item ∈ items, Plain item) : Plain (.array items)
  | object {members : List (String × Json)} (h : ∀ m ∈ members, Plain m.2) :
      Plain (.object members)

@[simp]
theorem plain_string (s : String) : (Json.string s).Plain := .string s

@[simp]
theorem plain_array_iff : (Json.array items).Plain ↔ ∀ item ∈ items, item.Plain :=
  ⟨fun h => by cases h; assumption, .array⟩

@[simp]
theorem plain_object_iff : (Json.object members).Plain ↔ ∀ m ∈ members, m.2.Plain :=
  ⟨fun h => by cases h; assumption, .object⟩

mutual

/-- The tokens of the text of a value. -/
def tokens : Json → List Token
  | .null => [.null]
  | .bool b => [.bool b]
  | .integer z => [.integer z]
  | .real literal => [.real literal]
  | .string s => [.string s]
  | .broken => [.brokenString]
  | .array [] => [.openArray, .closeArray]
  | .array (item :: items) => .openArray :: (tokens item ++ itemTokens items)
  | .object [] => [.openObject, .closeObject]
  | .object ((key, value) :: members) =>
    .openObject :: .string key :: .colon :: (tokens value ++ memberTokens members)

/-- The tokens behind the first item, up to the closing bracket. -/
def itemTokens : List Json → List Token
  | [] => [.closeArray]
  | item :: items => .comma :: (tokens item ++ itemTokens items)

/-- The tokens behind the first member, up to the closing brace. -/
def memberTokens : List (String × Json) → List Token
  | [] => [.closeObject]
  | (key, value) :: members =>
    .comma :: .string key :: .colon :: (tokens value ++ memberTokens members)

end

/-! ### From characters to tokens -/

/-- The characters spell the tokens, before any text that does not continue a numeral. -/
def Spells (cs : List Char) (ts : List Token) : Prop :=
  ∀ rest, Ends rest → scanChars? (cs ++ rest) = (scanChars? rest).map (ts ++ ·)

theorem Ends.append (hcs : Ends cs) (hds : Ends ds) : Ends (cs ++ ds) := by
  cases cs with
  | nil => exact hds
  | cons c cs => exact hcs

namespace Spells

theorem nil : Spells [] [] := by
  intro rest _
  cases h : scanChars? rest <;> simp [h]

/-- A character that is a token by itself. -/
theorem punctuation (hspace : isSpace c = false) (hc : punctuation? c = some t)
    (h : Spells cs ts) : Spells (c :: cs) (t :: ts) := by
  intro rest hrest
  have hnext : next? c (cs ++ rest) = some (t, cs ++ rest) := by rw [next?, hc]
  rw [List.cons_append, scanChars?_next hspace hnext, h rest hrest, Option.map_map]
  rfl

theorem literal (s : String) (h : Spells cs ts) :
    Spells (literal s ++ cs) (.string s :: ts) := by
  intro rest hrest
  rw [List.append_assoc, scanChars?_literal, h rest hrest, Option.map_map]
  rfl

theorem space (hc : isSpace c = true) (h : Spells cs ts) : Spells (c :: cs) ts := by
  intro rest hrest
  rw [List.cons_append, scanChars?_space hc, h rest hrest]

theorem lineBreak (layout : Layout) (h : Spells cs ts) :
    Spells (lineBreak layout ++ cs) ts := by
  cases layout with
  | none => exact h
  | some depth =>
    have hindent : ∀ n, Spells (List.replicate n ' ' ++ cs) ts := by
      intro n
      induction n with
      | zero => exact h
      | succ n ih => exact space rfl ih
    exact space rfl (hindent (2 * depth))

theorem colon (layout : Layout) (h : Spells cs ts) :
    Spells (colonChars layout ++ cs) (.colon :: ts) := by
  cases layout with
  | none => exact punctuation rfl rfl h
  | some depth => exact punctuation rfl rfl (space rfl h)

theorem append (h : Spells cs ts) (hds : Ends ds) (h' : Spells ds us) :
    Spells (cs ++ ds) (ts ++ us) := by
  intro rest hrest
  rw [List.append_assoc, h _ (hds.append hrest), h' rest hrest, Option.map_map]
  congr 1
  funext tail
  exact (List.append_assoc ts us tail).symm

end Spells

theorem ends_lineBreak (layout : Layout) (hcs : Ends cs) : Ends (lineBreak layout ++ cs) := by
  cases layout with
  | none => exact hcs
  | some depth => exact .cons rfl (by decide)

theorem ends_items (inner outer : Layout) (items : List Json) :
    Ends (writeItems inner items ++ (lineBreak outer ++ [']'])) := by
  cases items with
  | nil => exact ends_lineBreak outer (.cons rfl (by decide))
  | cons item items => exact .cons rfl (by decide)

theorem ends_members (inner outer : Layout) (members : List (String × Json)) :
    Ends (writeMembers inner members ++ (lineBreak outer ++ ['\x7d'])) := by
  cases members with
  | nil => exact ends_lineBreak outer (.cons rfl (by decide))
  | cons m members => exact .cons rfl (by decide)

/-- What stands behind the first item of an array. -/
theorem spells_items (h : ∀ item ∈ items, ∀ layout, Spells (item.write layout) item.tokens)
    (inner outer : Layout) :
    Spells (writeItems inner items ++ (lineBreak outer ++ [']'])) (itemTokens items) := by
  induction items with
  | nil =>
    apply Spells.lineBreak
    exact .punctuation rfl rfl .nil
  | cons item items ih =>
    have htail := ih fun i hi => h i (List.mem_cons_of_mem item hi)
    simp only [writeItems, itemTokens, List.append_assoc, List.cons_append]
    apply Spells.punctuation rfl rfl
    apply Spells.lineBreak
    exact (h item List.mem_cons_self inner).append (ends_items inner outer items) htail

/-- What stands behind the first member of an object. -/
theorem spells_members (h : ∀ m ∈ members, ∀ layout, Spells (m.2.write layout) m.2.tokens)
    (inner outer : Layout) :
    Spells (writeMembers inner members ++ (lineBreak outer ++ ['\x7d'])) (memberTokens members) := by
  induction members with
  | nil =>
    apply Spells.lineBreak
    exact .punctuation rfl rfl .nil
  | cons m members ih =>
    have htail := ih fun i hi => h i (List.mem_cons_of_mem m hi)
    simp only [writeMembers, memberTokens, List.append_assoc, List.cons_append]
    apply Spells.punctuation rfl rfl
    apply Spells.lineBreak
    apply Spells.literal
    apply Spells.colon
    exact (h m List.mem_cons_self inner).append (ends_members inner outer members) htail

/-- A value is written in its tokens, in whichever layout. -/
theorem Plain.spells {j : Json} (h : j.Plain) (layout : Layout) :
    Spells (j.write layout) j.tokens := by
  induction h generalizing layout with
  | null => exact fun rest _ => scanChars?_next rfl rfl
  | bool b => cases b <;> exact fun rest _ => scanChars?_next rfl rfl
  | integer hlow hhigh => exact fun rest hrest => scanChars?_integer hlow hhigh hrest
  | string s => exact fun rest _ => scanChars?_literal s rest
  | @array items h ih =>
    cases items with
    | nil => exact .punctuation rfl rfl (.punctuation rfl rfl .nil)
    | cons item items =>
      -- Items are one level deeper than the closing bracket.
      have hitems := spells_items (fun i hi => ih i (List.mem_cons_of_mem item hi))
        (deeper layout) layout
      simp only [write, tokens, List.append_assoc]
      apply Spells.punctuation rfl rfl
      apply Spells.lineBreak
      exact (ih item List.mem_cons_self _).append (ends_items _ layout items) hitems
  | @object members h ih =>
    cases members with
    | nil => exact .punctuation rfl rfl (.punctuation rfl rfl .nil)
    | cons m members =>
      have hmembers := spells_members (fun i hi => ih i (List.mem_cons_of_mem m hi))
        (deeper layout) layout
      simp only [write, tokens, List.append_assoc]
      apply Spells.punctuation rfl rfl
      apply Spells.lineBreak
      apply Spells.literal
      apply Spells.colon
      exact (ih m List.mem_cons_self _).append (ends_members _ layout members) hmembers

/-! ### From tokens to values -/

/-- The tokens spell the value, whatever follows them. Fuel of twice their number is enough. -/
def Denotes (ts : List Token) (j : Json) : Prop :=
  ∀ fuel rest, 2 * ts.length ≤ fuel → readValue fuel (ts ++ rest) = some (j, rest)

/-- One token at least needs fuel of two at least. -/
theorem Denotes.of_cons {j : Json} (h : ∀ fuel rest, 2 * ts.length ≤ fuel →
      readValue (fuel + 2) (t :: (ts ++ rest)) = some (j, rest)) : Denotes (t :: ts) j := by
  intro fuel rest hfuel
  rw [List.length_cons] at hfuel
  obtain ⟨fuel, rfl⟩ := Nat.exists_eq_add_of_le' (show 2 ≤ fuel by omega)
  exact h fuel rest (by omega)

/-- No value starts with a closing bracket. -/
theorem head?_tokens (j : Json) (ts : List Token) : (j.tokens ++ ts).head? ≠ some .closeArray := by
  cases j with
  | array items => cases items <;> simp [tokens]
  | object members => cases members <;> simp [tokens]
  | _ => simp [tokens]

theorem readValue_openArray (fuel : Nat) (h : ts.head? ≠ some .closeArray) :
    readValue (fuel + 1) (.openArray :: ts) =
      (readItems fuel ts).map fun p => (.array p.1, p.2) := by
  rw [readValue.eq_def]
  simp only
  split
  · exact absurd rfl h
  · rfl

theorem readValue_openObject (fuel : Nat) (key : String) (ts : List Token) :
    readValue (fuel + 1) (.openObject :: .string key :: ts) =
      (readMembers fuel (.string key :: ts)).map fun p => (ofMembers p.1, p.2) := by
  rw [readValue.eq_def]

/-- The object of members that all have a text for a key. -/
theorem ofMembers_map (members : List (String × Json)) :
    ofMembers (members.map fun m => (some m.1, m.2)) = .object members := by
  have hall : (members.map fun m => (some m.1, m.2)).mapM
      (fun m : Option String × Json => m.1.map fun key => (key, m.2)) = some members := by
    induction members with
    | nil => rfl
    | cons m members ih =>
      rw [List.map_cons, List.mapM_cons, ih]
      rfl
  rw [ofMembers, hall]

/-- The items of an array behind its opening bracket. -/
theorem readItems_tokens (h : ∀ i ∈ item :: items, Denotes i.tokens i) (fuel : Nat)
    (rest : List Token) (hfuel : 2 * (item.tokens ++ itemTokens items).length ≤ fuel) :
    readItems (fuel + 1) (item.tokens ++ itemTokens items ++ rest) =
      some (item :: items, rest) := by
  induction items generalizing item fuel with
  | nil =>
    rw [List.length_append] at hfuel
    rw [readItems, List.append_assoc, h item List.mem_cons_self fuel _ (by omega)]
    rfl
  | cons next items ih =>
    -- One unit of fuel goes into the step, and the comma pays for it.
    simp only [itemTokens, List.length_append, List.length_cons] at hfuel
    obtain ⟨fuel, rfl⟩ := Nat.exists_eq_add_one_of_ne_zero (show fuel ≠ 0 by omega)
    have hnext := ih (fun i hi => h i (List.mem_cons_of_mem item hi)) fuel
      (by rw [List.length_append]; omega)
    rw [readItems, List.append_assoc, h item List.mem_cons_self (fuel + 1) _ (by omega)]
    simp only [itemTokens, List.cons_append]
    rw [hnext, Option.map_some]

/-- The members of an object behind its opening brace. -/
theorem readMembers_tokens {m : String × Json} (h : ∀ i ∈ m :: members, Denotes i.2.tokens i.2)
    (fuel : Nat) (rest : List Token)
    (hfuel : 2 * (m.2.tokens ++ memberTokens members).length ≤ fuel) :
    readMembers (fuel + 1) (.string m.1 :: .colon :: (m.2.tokens ++ memberTokens members ++ rest)) =
      some ((m :: members).map fun m => (some m.1, m.2), rest) := by
  induction members generalizing m fuel with
  | nil =>
    rw [List.length_append] at hfuel
    rw [readMembers, List.append_assoc, h m List.mem_cons_self fuel _ (by omega)]
    rfl
  | cons next members ih =>
    simp only [memberTokens, List.length_append, List.length_cons] at hfuel
    obtain ⟨fuel, rfl⟩ := Nat.exists_eq_add_one_of_ne_zero (show fuel ≠ 0 by omega)
    have hnext := ih (fun i hi => h i (List.mem_cons_of_mem m hi)) fuel
      (by rw [List.length_append]; omega)
    rw [readMembers, List.append_assoc, h m List.mem_cons_self (fuel + 1) _ (by omega)]
    simp only [memberTokens, List.cons_append]
    rw [hnext]
    rfl

/-- The tokens of a value spell the value: its parts are shorter, so the fuel lasts. -/
theorem Plain.denotes {j : Json} (h : j.Plain) : Denotes j.tokens j := by
  induction h with
  | null | bool | integer | string => exact .of_cons fun _ _ _ => rfl
  | @array items h ih =>
    cases items with
    | nil => exact .of_cons fun _ _ _ => rfl
    | cons item items =>
      apply Denotes.of_cons
      intro fuel rest hfuel
      -- The array is not empty, because what follows the bracket is the head of a value.
      have hhead := head?_tokens item (itemTokens items ++ rest)
      rw [← List.append_assoc] at hhead
      rw [readValue_openArray _ hhead, readItems_tokens ih fuel rest hfuel, Option.map_some]
  | @object members h ih =>
    cases members with
    | nil => exact .of_cons fun _ _ _ => rfl
    | cons m members =>
      apply Denotes.of_cons
      intro fuel rest hfuel
      simp only [List.length_cons] at hfuel
      have hmembers := readMembers_tokens ih fuel rest (by omega)
      simp only [List.cons_append]
      rw [readValue_openObject, hmembers, Option.map_some, ofMembers_map]

/-! ### From a text to its value -/

/-- The text of a plain value, in either layout, denotes the value. -/
theorem Plain.ofText?_write {j : Json} (h : j.Plain) (layout : Layout) :
    ofText? (String.ofList (j.write layout)) = some j := by
  have hscan : scan? (String.ofList (j.write layout)) = some j.tokens := by
    have hspells := h.spells layout [] .nil
    rw [List.append_nil, scanChars?, Option.map_some, List.append_nil] at hspells
    rw [scan?, String.toList_ofList, hspells]
  have hread := h.denotes (2 * j.tokens.length + 1) [] (by omega)
  rw [List.append_nil] at hread
  rw [ofText?, hscan, Option.bind_some, ofTokens?, hread]

/-- The bytes of the text denote the value. -/
theorem Plain.ofBytes?_write {j : Json} (h : j.Plain) (layout : Layout) :
    ofBytes? (String.ofList (j.write layout)).toUTF8 = some j := by
  rw [ofBytes?, Text.ofBytes_toUTF8, h.ofText?_write layout]

end YangBinding.Json
