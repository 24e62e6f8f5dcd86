import YangBinding.Json.Record
import YangBinding.Settings.Basic

/-!
# Settings in JSON

Settings are written in three groups. Whatever is missing has its default.
-/

namespace YangBinding.Wire

open Json

/-- Settings as JSON. -/
def settings (s : Settings) : Json :=
  .object [
    ("logging", .object [("filter", .string s.logFilter)]),
    ("registry", .object [("strict_bindings", .bool s.strictBindings)]),
    ("serializer", .object [("default_format", .string s.defaultFormat),
      ("pretty", .bool s.pretty)])]

/-- The fields of one group of settings; a missing group has no fields. -/
def groupFields? (keys : List String) (depth : Nat) :
    Option Json → Option (List (Option Json))
  | none => some (keys.map fun _ => none)
  | some j => if depth = 0 then none else fields? keys j

/-- Settings. -/
def readSettings : Reader Settings
  | 0, _ => none
  | depth + 1, j => do
    let [logging, registry, serializer] ← fields? ["logging", "registry", "serializer"] j | none
    let [filter] ← groupFields? ["filter"] depth logging | none
    let [strict] ← groupFields? ["strict_bindings"] depth registry | none
    let [format, pretty] ← groupFields? ["default_format", "pretty"] depth serializer | none
    let standard : Settings := {}
    return {
      logFilter := ← defaulted standard.logFilter string? filter
      strictBindings := ← defaulted standard.strictBindings bool? strict
      defaultFormat := ← defaulted standard.defaultFormat string? format
      pretty := ← defaulted standard.pretty bool? pretty }

end YangBinding.Wire
