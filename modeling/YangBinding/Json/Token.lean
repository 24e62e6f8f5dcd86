import YangBinding.Text.Numeral
import YangBinding.Text.Radix

/-!
# The tokens of a JSON text

A JSON text is a sequence of tokens with blanks between them. Blanks are the four ASCII characters
that JSON allows, and every token has one reading, so that a text has at most one token sequence.

## Main definitions

* `Token`: punctuation, words, numerals and string literals
* `Token.scan?`: the tokens of a text, none if some part of it is no token

## Main statements

* `Token.length_le_of_next`: a token never takes characters that are not there
-/

namespace YangBinding.Json

/-- A token of a JSON text. Numerals and string literals are already interpreted. -/
inductive Token where
  | openArray
  | closeArray
  | openObject
  | closeObject
  | comma
  | colon
  | null
  | bool (value : Bool)
  | integer (value : Int)
  | real (literal : String)
  | string (value : String)
  | brokenString
  deriving DecidableEq, Repr

namespace Token

/-- The characters that may stand between tokens. -/
def isSpace (c : Char) : Bool :=
  c == ' ' || c == '\n' || c == '\r' || c == '\t'

/-! ## String literals -/

/-- A unit of a string literal: a character that stands for itself or has a short escape, or a
UTF-16 code unit given by number. -/
inductive StringUnit where
  | char (c : Char)
  | code (n : Nat)
  deriving DecidableEq, Repr

/-- The character that a short escape stands for. -/
def shortEscape? (c : Char) : Option Char :=
  if c = '"' ∨ c = '\\' ∨ c = '/' then some c
  else if c = 'b' then some '\x08'
  else if c = 'f' then some '\x0c'
  else if c = 'n' then some '\n'
  else if c = 'r' then some '\r'
  else if c = 't' then some '\t'
  else none

/-- The units of a string literal whose opening quote has been read, and the text after its closing
quote. Control characters have to be escaped. -/
def stringUnits? : List Char → Option (List StringUnit × List Char)
  | [] => none
  | '"' :: rest => some ([], rest)
  | '\\' :: 'u' :: a :: b :: c :: d :: rest => do
    let n ← Text.numberOf? 16 [a, b, c, d]
    let (units, rest) ← stringUnits? rest
    pure (.code n :: units, rest)
  | '\\' :: e :: rest => do
    let c ← shortEscape? e
    let (units, rest) ← stringUnits? rest
    pure (.char c :: units, rest)
  | c :: rest =>
    if c = '\\' ∨ c.toNat < 0x20 then none
    else do
      let (units, rest) ← stringUnits? rest
      pure (.char c :: units, rest)

/-- A leading surrogate. -/
def isLeading (n : Nat) : Bool :=
  decide (0xD800 ≤ n) && decide (n ≤ 0xDBFF)

/-- A trailing surrogate. -/
def isTrailing (n : Nat) : Bool :=
  decide (0xDC00 ≤ n) && decide (n ≤ 0xDFFF)

/-- The characters denoted by string units: surrogates have to come in pairs. -/
def unitChars? : List StringUnit → Option (List Char)
  | [] => some []
  | .char c :: rest => do pure (c :: (← unitChars? rest))
  | .code n :: rest =>
    if isLeading n then
      match rest with
      | .code m :: rest =>
        if isTrailing m then do
          pure (Char.ofNat (0x10000 + (n - 0xD800) * 0x400 + (m - 0xDC00)) :: (← unitChars? rest))
        else none
      | _ => none
    else if isTrailing n then none
    else do pure (Char.ofNat n :: (← unitChars? rest))

/-- The token of a string literal with the given units. -/
def ofUnits (units : List StringUnit) : Token :=
  match unitChars? units with
  | some cs => .string (String.ofList cs)
  | none => .brokenString

/-! ## Numerals -/

/-- A fraction part, possibly empty, and the text after it. A point needs a digit after it. -/
def fraction? : List Char → Option (List Char × List Char)
  | '.' :: rest =>
    let digits := rest.takeWhile Char.isDigit
    if digits = [] then none else some ('.' :: digits, rest.dropWhile Char.isDigit)
  | cs => some ([], cs)

/-- The sign of an exponent, possibly empty, and the text after it. -/
def exponentSign : List Char → List Char × List Char
  | '+' :: rest => (['+'], rest)
  | '-' :: rest => (['-'], rest)
  | cs => ([], cs)

/-- An exponent part, possibly empty, and the text after it. -/
def exponent? : List Char → Option (List Char × List Char)
  | [] => some ([], [])
  | e :: rest =>
    if e = 'e' ∨ e = 'E' then
      let (sign, rest) := exponentSign rest
      let digits := rest.takeWhile Char.isDigit
      if digits = [] then none else some (e :: (sign ++ digits), rest.dropWhile Char.isDigit)
    else some ([], e :: rest)

/-- The token of a numeral without fraction and exponent. It is an integer unless it is `-0` or
does not fit 64 bits. -/
def ofDigits (negative : Bool) (digits : List Char) : Token :=
  let n := Text.digitsValue digits
  if negative then
    if n = 0 ∨ 9223372036854775808 < n then .real (String.ofList ('-' :: digits)) else .integer (-(n : Int))
  else if n < 18446744073709551616 then .integer n
  else .real (String.ofList digits)

/-- A numeral without sign, and the text after it. The first digit is 0 only if it is the only one
before the point. -/
def numeral? (negative : Bool) (cs : List Char) : Option (Token × List Char) :=
  let digits := cs.takeWhile Char.isDigit
  if digits = [] ∨ (digits.head? = some '0' ∧ digits.length ≠ 1) then none
  else do
    let (fraction, rest) ← fraction? (cs.dropWhile Char.isDigit)
    let (exponent, rest) ← exponent? rest
    if fraction = [] ∧ exponent = [] then pure (ofDigits negative digits, rest)
    else
      let sign := if negative then ['-'] else []
      pure (.real (String.ofList (sign ++ digits ++ fraction ++ exponent)), rest)

/-! ## Scanning -/

/-- The token that a punctuation character is. -/
def punctuation? (c : Char) : Option Token :=
  if c = '[' then some .openArray
  else if c = ']' then some .closeArray
  else if c = '\x7b' then some .openObject
  else if c = '\x7d' then some .closeObject
  else if c = ',' then some .comma
  else if c = ':' then some .colon
  else none

/-- The word that starts with `c`, and the text after it. -/
def word? : Char → List Char → Option (Token × List Char)
  | 'n', 'u' :: 'l' :: 'l' :: rest => some (.null, rest)
  | 't', 'r' :: 'u' :: 'e' :: rest => some (.bool true, rest)
  | 'f', 'a' :: 'l' :: 's' :: 'e' :: rest => some (.bool false, rest)
  | _, _ => none

/-- The token that starts with `c`, and the text after it. -/
def next? (c : Char) (rest : List Char) : Option (Token × List Char) :=
  match punctuation? c with
  | some t => some (t, rest)
  | none =>
    if c = '"' then (stringUnits? rest).map fun p => (ofUnits p.1, p.2)
    else if c = '-' then numeral? true rest
    else if c.isDigit then numeral? false (c :: rest)
    else word? c rest

/-! ## Progress -/

theorem length_le_of_stringUnits {cs rest : List Char} {units : List StringUnit}
    (h : stringUnits? cs = some (units, rest)) : rest.length ≤ cs.length := by
  fun_induction stringUnits? cs generalizing units rest with
  | case1 => simp at h
  | case2 => simp_all
  | case3 a b c d tail ih =>
    simp only [Option.bind_eq_bind, Option.bind_eq_some_iff, Option.pure_def, Option.some.injEq,
      Prod.mk.injEq] at h
    obtain ⟨_, _, p, hp, rfl, rfl⟩ := h
    have := ih hp
    simp only [List.length_cons]
    omega
  | case4 e tail _ ih =>
    simp only [Option.bind_eq_bind, Option.bind_eq_some_iff, Option.pure_def, Option.some.injEq,
      Prod.mk.injEq] at h
    obtain ⟨_, _, p, hp, rfl, rfl⟩ := h
    have := ih hp
    simp only [List.length_cons]
    omega
  | case5 => simp at h
  | case6 c tail _ _ _ _ ih =>
    simp only [Option.bind_eq_bind, Option.bind_eq_some_iff, Option.pure_def, Option.some.injEq,
      Prod.mk.injEq] at h
    obtain ⟨p, hp, rfl, rfl⟩ := h
    have := ih hp
    simp only [List.length_cons]
    omega

theorem length_dropWhile_le (p : Char → Bool) (cs : List Char) :
    (cs.dropWhile p).length ≤ cs.length :=
  (List.dropWhile_suffix p).length_le

theorem length_le_of_fraction {cs rest fraction : List Char}
    (h : fraction? cs = some (fraction, rest)) : rest.length ≤ cs.length := by
  unfold fraction? at h
  split at h
  · next tail =>
    simp only [Option.ite_none_left_eq_some, Option.some.injEq, Prod.mk.injEq] at h
    obtain ⟨_, _, rfl⟩ := h
    have := length_dropWhile_le Char.isDigit tail
    simp only [List.length_cons]
    omega
  · simp_all

theorem length_exponentSign_le (cs : List Char) : (exponentSign cs).2.length ≤ cs.length := by
  unfold exponentSign
  split <;> simp

theorem length_le_of_exponent {cs rest exponent : List Char}
    (h : exponent? cs = some (exponent, rest)) : rest.length ≤ cs.length := by
  unfold exponent? at h
  split at h
  · simp_all
  · next e tail =>
    split at h
    · simp only [Option.ite_none_left_eq_some, Option.some.injEq, Prod.mk.injEq] at h
      obtain ⟨_, _, rfl⟩ := h
      have := length_dropWhile_le Char.isDigit (exponentSign tail).2
      have := length_exponentSign_le tail
      simp only [List.length_cons]
      omega
    · simp_all

theorem length_lt_of_numeral {negative : Bool} {cs rest : List Char} {t : Token}
    (h : numeral? negative cs = some (t, rest)) : rest.length < cs.length := by
  simp only [numeral?, Option.ite_none_left_eq_some, Option.bind_eq_bind,
    Option.bind_eq_some_iff] at h
  obtain ⟨start, ⟨fraction, mid⟩, hf, ⟨exponent, last⟩, he, h⟩ := h
  have same : last = rest := by
    split at h <;> simp_all
  subst same
  have h₁ : mid.length ≤ _ := length_le_of_fraction hf
  have h₂ : last.length ≤ mid.length := length_le_of_exponent he
  have whole := congrArg List.length (List.takeWhile_append_dropWhile (p := Char.isDigit) (l := cs))
  rw [List.length_append] at whole
  have := List.length_pos_iff.2 fun nil => start (Or.inl nil)
  omega

theorem length_le_of_word {c : Char} {cs rest : List Char} {t : Token}
    (h : word? c cs = some (t, rest)) : rest.length ≤ cs.length := by
  unfold word? at h
  split at h
  case h_4 => simp at h
  all_goals
    simp only [Option.some.injEq, Prod.mk.injEq] at h
    simp only [← h.2, List.length_cons]
    omega

/-- A token takes at least one character, and none that is not there. -/
theorem length_le_of_next {c : Char} {cs rest : List Char} {t : Token}
    (h : next? c cs = some (t, rest)) : rest.length ≤ cs.length := by
  unfold next? at h
  split at h
  · simp_all
  · split at h
    · simp only [Option.map_eq_some_iff, Prod.mk.injEq] at h
      obtain ⟨p, hp, -, rfl⟩ := h
      exact length_le_of_stringUnits hp
    · split at h
      · exact Nat.le_of_lt (length_lt_of_numeral h)
      · split at h
        · exact Nat.le_of_lt_succ (length_lt_of_numeral h)
        · exact length_le_of_word h

/-- The tokens of a text. -/
def scanChars? (cs : List Char) : Option (List Token) :=
  match cs with
  | [] => some []
  | c :: rest =>
    if isSpace c then scanChars? rest
    else
      match _h : next? c rest with
      | some (t, tail) => (scanChars? tail).map (t :: ·)
      | none => none
termination_by cs.length
decreasing_by
  · simp
  · have := length_le_of_next ‹_›
    simp only [List.length_cons]
    omega

/-- The tokens of a text, none if some part of it is no token. -/
def scan? (s : String) : Option (List Token) :=
  scanChars? s.toList

end Token

end YangBinding.Json
