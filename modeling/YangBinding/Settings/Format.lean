import YangBinding.Json.Reader
import YangBinding.Json.Record
import YangBinding.Settings.Ini
import YangBinding.Settings.Json5
import YangBinding.Settings.Ron
import YangBinding.Settings.Yaml.Node
import YangBinding.Toml.Reader

/-!
# Formats of settings files

A settings file may be written in several formats. Which one it is shows in the ending of its name.
Whatever the format, a file has to hold a table.

## Main definitions

* `Format`, `Format.endings`, `Format.ofEnding?`: the formats, and the endings that tell them
* `Format.table?`: the table that a text denotes in a format

Main statement: `Format.ofEnding?_eq_some_iff`, an ending tells one format.
-/

namespace YangBinding.Settings

/-- A format of settings files. -/
inductive Format where
  | toml | json | yaml | ini | ron | json5
  deriving DecidableEq, Repr

namespace Format

/-- All formats, in the order in which files are looked for. -/
def all : List Format := [toml, json, yaml, ini, ron, json5]

/-- The endings of the names of files in a format. -/
def endings : Format → List String
  | toml => ["toml"]
  | json => ["json"]
  | yaml => ["yaml", "yml"]
  | ini => ["ini"]
  | ron => ["ron"]
  | json5 => ["json5"]

/-- The endings of all formats. -/
def allEndings : List String := all.flatMap endings

/-- The format that an ending tells. -/
def ofEnding? (ending : String) : Option Format :=
  all.find? fun format => format.endings.contains ending

/-- An ending tells a format exactly if it is one of its endings. -/
theorem ofEnding?_eq_some_iff {ending : String} {format : Format} :
    ofEnding? ending = some format ↔ ending ∈ format.endings := by
  constructor
  · intro h
    simpa using List.find?_some h
  · intro h
    cases format with
    | yaml =>
      rcases List.mem_cons.1 h with h | h
      · rw [h]; decide
      · rw [List.mem_singleton.1 h]; decide
    | toml | json | ini | ron | json5 => rw [List.mem_singleton.1 h]; decide

/-- A text without a byte order mark in front. -/
def unmarked (s : String) : String :=
  match s.toList with
  | '\uFEFF' :: cs => String.ofList cs
  | _ => s

/-- The table that a text denotes. A byte order mark in front does not count. -/
def table? (format : Format) (s : String) : Option Table :=
  let s := unmarked s
  match format with
  | toml => (Toml.Table.ofText? s).map Value.ofTomlEntries
  | json => ((Json.ofText? s).bind (Value.ofJson? Json.nestingLimit)).bind Value.table?
  | yaml => Yaml.table? s
  | ini => Ini.table? s
  | ron => Ron.table? s
  | json5 => Json5.table? s

end Format

end YangBinding.Settings
