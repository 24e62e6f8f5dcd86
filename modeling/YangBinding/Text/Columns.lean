/-!
# Columns

Tables on the console are laid out in columns of fixed width. A cell is filled with spaces on its
right; a cell that is already too long is kept whole, so no text is ever lost. Width counts
characters.

Main statement: `length_padRight`.
-/

namespace YangBinding.Text

/-- A text filled on its right with spaces to at least `width` characters. -/
def padRight (width : Nat) (s : String) : String :=
  s ++ String.ofList (List.replicate (width - s.length) ' ')

/-- A padded text is as long as the wider of its column and itself. -/
theorem length_padRight (width : Nat) (s : String) :
    (padRight width s).length = max width s.length := by
  simp [padRight]
  omega

end YangBinding.Text
