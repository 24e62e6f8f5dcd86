import YangBinding.Inspect.Arguments
import YangBinding.Registry.Basic
import YangBinding.Schema.Compile
import YangBinding.Settings.Load
import YangBinding.Text.Columns
import YangBinding.Wire.Source

/-!
# The inspector

The inspector registers the models in some files and reports what it finds in them.

## Main definitions

* `Outcome`: what a run prints, and its exit code
* `run`: the outcome of a run with some arguments in given surroundings
-/

namespace YangBinding.Inspect

open Schema (Ref)

/-- What a run prints, and its exit code. -/
structure Outcome where
  exit : Nat := 0
  output : String := ""
  errors : String := ""
  deriving DecidableEq, Repr

/-- The usage of the inspector. -/
def usage : String :=
  "Inspect compiled YANG models and runtime configuration\n\n" ++
  "Usage: yang-inspect [-c FILE] modules MODEL...\n" ++
  "       yang-inspect [-c FILE] resolve MODEL... -n NAME\n" ++
  "       yang-inspect [-c FILE] config\n"

/-- Reads, compiles and registers the model in a file, or says what failed. -/
def addModel (folder : Folder) (reg : Registry) (file : String) : Except String Registry := do
  let text ← match folder.read? file with
    | some text => pure text
    | none => throw s!"reading {file}: No such file or directory (os error 2)"
  let source ← match Schema.Source.ofText? text with
    | some source => pure source
    | none => throw s!"compiling {file}: {Error.json.message}"
  let m ← (Result.ofModel source.compile).mapError fun e => s!"compiling {file}: {e.message}"
  (reg.register m []).mapError fun e => s!"registering {file}: {e.message}"

/-- The registry of the models in some files. -/
def addModels (folder : Folder) (settings : Settings) (files : List String) :
    Except String Registry :=
  files.foldlM (addModel folder) { strictBindings := settings.strictBindings }

/-- The revision of a module, or a hyphen. -/
def revisionText (module : Ref) : String :=
  (module.revision.map Calendar.Date.text).getD "-"

/-- The line of a module in a list of modules. -/
def moduleLine (module : Ref) : String :=
  let ns := module.ns.getD ""
  s!"{Text.padRight 32 module.name} {Text.padRight 12 (revisionText module)} " ++
    s!"{Text.padRight 40 ns} ({module.model.id})\n"

/-- The line of a top-level node of a module, with its class if it has one. -/
def childLine (child : Ref) : String :=
  let kind := Text.padRight 14 child.kind.text
  match child.className with
  | some className => s!"  {kind} {Text.padRight 32 child.name} {className}\n"
  | none => s!"  {kind} {child.name}\n"

/-- A module and its top-level nodes. -/
def moduleReport (module : Ref) : String :=
  s!"{module.name} {revisionText module} from model {module.model.id}\n" ++
    String.join (module.children.map childLine)

/-- What a command prints, or what failed. -/
def report (folder : Folder) (settings : Settings) : Command → Except String String
  | .modules files => do
    let reg ← addModels folder settings files
    pure (String.join (reg.modules.all.map moduleLine))
  | .resolve files name => do
    let reg ← addModels folder settings files
    match reg.module? name with
    | some module => pure (moduleReport module)
    | none => throw s!"no module registered for '{name}'"
  | .settings => pure settings.toText

/-- The outcome of a command with the settings in force. -/
def perform (s : Surroundings) (i : Invocation) : Outcome :=
  let result : Except String String := do
    let settings ← (Settings.load s i.settingsFile).mapError Error.message
    report s.folder settings i.command
  match result with
  | .ok output => { output }
  | .error cause => { exit := 1, errors := s!"Error: {cause}\n" }

/-- The outcome of a run. -/
def run (s : Surroundings) (arguments : List String) : Outcome :=
  match Invocation.ofArguments arguments with
  | .ok i => perform s i
  | .error .help => { output := usage }
  | .error .misuse => { exit := 2, errors := usage }

end YangBinding.Inspect
