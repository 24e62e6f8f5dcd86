import YangBinding.Inspect.Report

/-!
# The command line

Collects what a run of the inspector may need from the world, and prints its outcome.
-/

namespace YangBinding.Inspect

/-- The text of a file, if it can be read. -/
def readText? (path : String) : IO (Option String) := do
  try
    return some (← IO.FS.readFile path)
  catch _ =>
    return none

/-- The paths at which a run looks for files. -/
def pathsOf (arguments : List String) : List String :=
  match Invocation.ofArguments arguments with
  | .ok i =>
    let settings := Settings.places ++ i.settingsFile.toList
    let withEndings := settings.flatMap fun path =>
      Settings.Format.allEndings.filterMap fun ending => withEnding? path ending
    settings ++ withEndings ++ i.command.modelFiles
  | .error _ => []

/-- The files at some paths that can be read. -/
def folderOf (paths : List String) : IO Folder := do
  let files ← paths.filterMapM fun path => do
    return (← readText? path).map fun text => (path, text)
  return Folder.ofFiles files

/-- The environment variables, where the system shows them to the process. -/
def environmentOf : IO (List (String × String)) := do
  let text := (← readText? "/proc/self/environ").getD ""
  return (Text.pieces '\x00' text).filterMap (Text.halves? '=')

/-- The text of the user's own settings file. -/
def userFile? (environment : List (String × String)) : IO (Option String) := do
  let absolute (path : String) : Bool := path.toList.head? = some '/'
  let directory := ((environment.lookup "XDG_CONFIG_HOME").filter absolute) <|>
    (environment.lookup "HOME").map (· ++ "/.config")
  match directory with
  | some directory => readText? (directory ++ "/yang-runtime/yang-runtime.toml")
  | none => return none

end YangBinding.Inspect

open YangBinding Inspect in
/-- Runs the inspector. -/
def main (arguments : List String) : IO UInt32 := do
  let environment ← environmentOf
  let surroundings : Surroundings := {
    folder := ← folderOf (pathsOf arguments)
    userFile := ← userFile? environment
    environment }
  let outcome := run surroundings arguments
  IO.print outcome.output
  IO.eprint outcome.errors
  return outcome.exit.toUInt32
