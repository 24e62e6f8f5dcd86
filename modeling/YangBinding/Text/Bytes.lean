/-!
# Texts in bytes

Bytes hold a text if they are its UTF-8 form. Other bytes can still be searched for the ASCII
characters in them, which UTF-8 keeps apart from everything else: a run of bytes from 0x80 on is
either the form of some characters or has no meaning, and no ASCII character is part of it.

## Main definitions

* `Text.marked`: the characters of bytes, with a mark in place of every meaningless run

## Main statements

* `Text.ofBytes_toUTF8`: the text of the UTF-8 form of a text is that text
-/

namespace YangBinding.Text

/-- A byte that is not an ASCII character. -/
def isHigh (b : UInt8) : Bool := decide (0x80 ≤ b.toNat)

/-- The characters of a run of high bytes, or the mark. -/
def runChars (mark : List Char) (run : List UInt8) : List Char :=
  match String.fromUTF8? run.toByteArray with
  | some text => text.toList
  | none => mark

/-- The characters of bytes; the mark stands for every run of high bytes that is not the form of
some characters. -/
def marked (mark : List Char) (bytes : List UInt8) : List Char :=
  match bytes with
  | [] => []
  | b :: rest =>
    if isHigh b then
      runChars mark (b :: rest.takeWhile isHigh) ++ marked mark (rest.dropWhile isHigh)
    else Char.ofNat b.toNat :: marked mark rest
termination_by bytes.length
decreasing_by
  · exact Nat.lt_succ_of_le (List.dropWhile_suffix isHigh).length_le
  · exact Nat.lt_succ_self _

/-- The text that bytes hold; bytes that hold none are marked where they fail. -/
def ofBytes (mark : List Char) (bytes : ByteArray) : String :=
  match String.fromUTF8? bytes with
  | some text => text
  | none => String.ofList (marked mark bytes.toList)

/-- The text of the UTF-8 form of a text is that text. -/
theorem ofBytes_toUTF8 (mark : List Char) (s : String) : ofBytes mark s.toUTF8 = s := by
  unfold ofBytes String.fromUTF8?
  rw [String.toUTF8_eq_toByteArray, dif_pos s.isValidUTF8]
  rfl

end YangBinding.Text
