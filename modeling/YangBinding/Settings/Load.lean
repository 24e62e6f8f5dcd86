import YangBinding.Decimal.Shortest
import YangBinding.Settings.Basic
import YangBinding.Settings.Folder
import YangBinding.Settings.Format
import YangBinding.Settings.Layers
import YangBinding.Settings.Variables
import YangBinding.Toml.Writer

/-!
# Loading and saving settings

Settings are taken from files at fixed places, from a file of the user, from a file that is named
explicitly, and from environment variables, each over those before it. Files at fixed places may be
missing. Values are taken as what is needed where that is clear: `on` as a boolean, a number as a
text.

## Main definitions

* `Surroundings`: where settings come from
* `Settings.ofValue?`: the settings that a value denotes
* `Settings.load`: the settings in force
* `Settings.toText`, `Settings.save`: the written form
-/

namespace YangBinding

/-- Where settings come from. -/
structure Surroundings where
  folder : Folder := {}
  /-- The text of the user's own file, if there is one. -/
  userFile : Option String := none
  /-- The environment variables. -/
  environment : List (String × String) := []

namespace Settings

/-! ## Values -/

/-- The words for true and for false, in small letters. -/
def booleanOfWord? (word : String) : Option Bool :=
  if word ∈ ["1", "true", "on", "yes"] then some true
  else if word ∈ ["0", "false", "off", "no"] then some false
  else none

/-- A boolean: a word for one, or any number, of which only zero is false. -/
def boolean? : Value → Option Bool
  | .boolean b => some b
  | .integer n => some (n != 0)
  | .real x => some (x != 0)
  | .text s => booleanOfWord? (lowered s)
  | .absent | .array _ | .table _ => none

/-- A text: any scalar. -/
def text? : Value → Option String
  | .boolean b => some (if b then "true" else "false")
  | .integer n => some (toString n)
  | .real x => some (Decimal.text x)
  | .text s => some s
  | .absent | .array _ | .table _ => none

/-- The members of a group by name, or by position if the group is given as an array. -/
def members? (names : List String) : Value → Option (List (Option Value))
  | .table entries => some (names.map fun name => entries.lookup name)
  | .array items => some ((items.map some ++ names.map fun _ => none).take names.length)
  | _ => none

/-- The members of a group inside a value; a missing group has none. -/
def group? (names : List String) : Option Value → Option (List (Option Value))
  | some value => members? names value
  | none => some (names.map fun _ => none)

/-- A member, or its default if it is missing. -/
def member? {α : Type} (read : Value → Option α) (default : α) : Option Value → Option α
  | some value => read value
  | none => some default

/-- The settings that a value denotes. -/
def ofValue? (value : Value) : Option Settings := do
  let [logging, registry, serializer] ← members? ["logging", "registry", "serializer"] value | none
  let [filter] ← group? ["filter"] logging | none
  let [strict] ← group? ["strict_bindings"] registry | none
  let [format, pretty] ← group? ["default_format", "pretty"] serializer | none
  let standard : Settings := {}
  pure {
    logFilter := ← member? text? standard.logFilter filter
    strictBindings := ← member? boolean? standard.strictBindings strict
    defaultFormat := ← member? text? standard.defaultFormat format
    pretty := ← member? boolean? standard.pretty pretty }

/-! ## Sources -/

/-- The places where settings are looked for. -/
def places : List String := ["yang-runtime.toml", ".yang-runtime.toml", "config/yang-runtime.toml"]

/-- The format and the text of the settings file at a path. The ending of its name may be left out,
but a file that bears the very name, and no ending of a format, is no settings file. -/
def file? (folder : Folder) (path : String) : Option (Format × String) :=
  match folder.read? path with
  | some text => ((ending? path).bind Format.ofEnding?).map fun format => (format, text)
  | none => Format.allEndings.findSome? fun ending => do
    let text ← folder.read? (← withEnding? path ending)
    pure (← Format.ofEnding? ending, text)

/-- The settings files in the order in which they are laid over each other. One that is named
explicitly has to be there. -/
def files (s : Surroundings) (explicit : Option String) : Result (List (Format × String)) := do
  let standard := places.filterMap (file? s.folder)
  let user := s.userFile.toList.map fun text => (Format.toml, text)
  let named ← match explicit.map (file? s.folder) with
    | none => pure []
    | some (some file) => pure [file]
    | some none => throw .config
  pure (standard ++ user ++ named)

/-- The layer in a file. -/
def layerOfFile (file : Format × String) : Result Table :=
  match file.1.table? file.2 with
  | some table => .ok table
  | none => .error .config

/-- The settings in force: those in the files, and those in the environment over them. -/
def load (s : Surroundings) (explicit : Option String) : Result Settings := do
  let layers ← (← files s explicit).mapM layerOfFile
  let value := (layers ++ [layerOfVariables s.environment]).foldl overlay (.table [])
  match ofValue? value with
  | some settings => pure settings
  | none => throw .config

/-! ## Writing -/

/-- A boolean in TOML. -/
def booleanText (b : Bool) : String := if b then "true" else "false"

/-- The written form: three tables with a blank line between them. -/
def toText (s : Settings) : String :=
  "[logging]\nfilter = " ++ Toml.quoted s.logFilter ++
  "\n\n[registry]\nstrict_bindings = " ++ booleanText s.strictBindings ++
  "\n\n[serializer]\ndefault_format = " ++ Toml.quoted s.defaultFormat ++
  "\npretty = " ++ booleanText s.pretty ++ "\n"

/-- The folder with the settings written to a file. -/
def save (s : Settings) (folder : Folder) (path : String) : Result Folder :=
  folder.write path s.toText

end Settings

end YangBinding
