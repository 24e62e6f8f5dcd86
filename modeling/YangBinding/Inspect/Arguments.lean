import YangBinding.Text.Split

/-!
# Arguments of the inspector

The inspector takes options, then a command, then the options and operands of the command. An option
has one value, which stands behind an equals sign or in the next argument, or directly behind the
letter of a short option. Behind a double hyphen everything is an operand.

## Main definitions

* `Inspect.Command`, `Invocation`: what the inspector is asked to do
* `Invocation.ofArguments`: the invocation that arguments spell
-/

namespace YangBinding.Inspect

/-- What the inspector can be asked for. -/
inductive Command where
  /-- The modules of the models in some files. -/
  | modules (files : List String)
  /-- The top of one module of the models in some files. -/
  | resolve (files : List String) (name : String)
  /-- The settings in force. -/
  | settings
  deriving DecidableEq, Repr

/-- A command, with the settings file that is named for it. -/
structure Invocation where
  settingsFile : Option String := none
  command : Command
  deriving DecidableEq, Repr

/-- Why arguments spell no invocation. -/
inductive Stop where
  /-- They ask for help. -/
  | help
  /-- They do not follow the usage. -/
  | misuse
  deriving DecidableEq, Repr

/-- An option: the letter of its short form and the name of its long form. -/
structure Flag where
  letter : Char
  name : String
  deriving DecidableEq, Repr

/-- The argument is an option, or marks the end of the options. A single hyphen is an operand. -/
def isFlag (argument : String) : Bool :=
  match argument.toList with
  | '-' :: _ :: _ => true
  | _ => false

/-- The option that an argument names, and the value that is attached to it. -/
def readFlag (flags : List Flag) (argument : List Char) :
    Except Stop (Flag × Option (List Char)) :=
  match argument with
  | '-' :: '-' :: long =>
    let (name, value) := match Text.cut? '=' long with
      | some (name, value) => (name, some value)
      | none => (long, none)
    if name = "help".toList ∧ value = none then .error .help
    else match flags.find? fun f => f.name.toList = name with
      | some f => .ok (f, value)
      | none => .error .misuse
  | '-' :: 'h' :: _ => .error .help
  | '-' :: letter :: attached =>
    let value := match attached with
      | [] => none
      | '=' :: value => some value
      | value => some value
    match flags.find? fun f => f.letter = letter with
    | some f => .ok (f, value)
    | none => .error .misuse
  | _ => .error .misuse

/-- The options in front of the first operand, or all options, with their values; then the
operands. -/
structure Parsed where
  options : List (Flag × String) := []
  operands : List String := []
  deriving DecidableEq, Repr

/-- One more option in front. -/
def Parsed.withOption (p : Parsed) (f : Flag) (value : String) : Parsed :=
  { p with options := (f, value) :: p.options }

/-- Sorts arguments into options and operands. Where the operands start a command of their own, all
that follows belongs to them. -/
def parse (flags : List Flag) (nested : Bool) : List String → Except Stop Parsed
  | [] => .ok {}
  | argument :: rest =>
    if argument = "--" then
      if nested then .error .misuse else .ok { operands := rest }
    else if isFlag argument then
      match readFlag flags argument.toList, rest with
      | .error stop, _ => .error stop
      | .ok (f, some value), rest => do
        pure ((← parse flags nested rest).withOption f (String.ofList value))
      | .ok (f, none), value :: rest =>
        if isFlag value then .error .misuse
        else do pure ((← parse flags nested rest).withOption f value)
      | .ok (_, none), [] => .error .misuse
    else if nested then .ok { operands := argument :: rest }
    else do
      let p ← parse flags nested rest
      pure { p with operands := argument :: p.operands }

/-- The value of an option, which may be given at most once. -/
def Parsed.option? (p : Parsed) (f : Flag) : Except Stop (Option String) :=
  match p.options.filter fun option => option.1 = f with
  | [] => .ok none
  | [option] => .ok (some option.2)
  | _ => .error .misuse

/-- The option that names a settings file. -/
def settingsFlag : Flag := ⟨'c', "config"⟩

/-- The option that names a module. -/
def nameFlag : Flag := ⟨'n', "name"⟩

/-- Paths of files, at least one and none of them empty. -/
def files (operands : List String) : Except Stop (List String) :=
  if operands.isEmpty || operands.contains "" then .error .misuse else .ok operands

/-- The command that arguments spell. -/
def Command.ofArguments : List String → Except Stop Command
  | "modules" :: rest => do
    let p ← parse [] false rest
    pure (.modules (← files p.operands))
  | "resolve" :: rest => do
    let p ← parse [nameFlag] false rest
    match ← p.option? nameFlag with
    | some name => pure (.resolve (← files p.operands) name)
    | none => throw .misuse
  | "config" :: rest => do
    let p ← parse [] false rest
    if p.operands.isEmpty then pure .settings else throw .misuse
  | ["help"] => .error .help
  | _ => .error .misuse

/-- The invocation that arguments spell. -/
def Invocation.ofArguments (arguments : List String) : Except Stop Invocation := do
  let p ← parse [settingsFlag] true arguments
  let settingsFile ← p.option? settingsFlag
  if settingsFile = some "" then throw .misuse
  pure { settingsFile, command := ← Command.ofArguments p.operands }

/-- The files with models that a command reads. -/
def Command.modelFiles : Command → List String
  | .modules files | .resolve files _ => files
  | .settings => []

end YangBinding.Inspect
