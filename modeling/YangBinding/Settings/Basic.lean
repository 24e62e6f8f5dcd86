/-!
# Settings

What can be adjusted from outside: how much is logged, how strictly registrations are checked, and
how data is encoded when the caller does not say.
-/

namespace YangBinding

/-- The settings of a session. -/
structure Settings where
  /-- What is written to the log. -/
  logFilter : String := "warn"
  /-- A class binding that names no node of its model is refused. -/
  strictBindings : Bool := true
  /-- The format of encodings for which none is named. -/
  defaultFormat : String := "json-tree"
  /-- Textual encodings are laid out for reading. -/
  pretty : Bool := false
  deriving DecidableEq, Repr

end YangBinding
