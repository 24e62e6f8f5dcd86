import YangBinding.Registry.Lookup
import YangBinding.Wire.Tree
import YangBinding.Json.Reader
import YangBinding.Json.Writer

/-!
# Codecs

A codec turns documents into bytes and back, in one named format. Codecs may consult the registry.
The one format that is always there writes documents as JSON; it refuses documents whose resource id
leads nowhere, in either direction.

## Main definitions

* `Codec`: a format
* `Codec.jsonTree`: documents as JSON
* `Codecs`: the formats that are available
-/

namespace YangBinding

open Std (TreeMap)
open YangBinding.Tree (CompositeData)

/-- An encoded document. -/
structure Encoded where
  /-- The text of the resource id, if the format has one beside the content. -/
  resourceId : Option String := none
  bytes : ByteArray

/-- A format for documents. -/
structure Codec where
  format : String
  /-- The encoded form of a document; the flag asks for a layout that is easy to read. -/
  encode : Registry → Bool → CompositeData → Result Encoded
  /-- The document of an encoded form. -/
  decode : Registry → Bool → Encoded → Result CompositeData

namespace Codec

/-- The JSON text of a document. -/
def jsonText (pretty : Bool) (document : CompositeData) : String :=
  let json := Wire.compositeData document
  if pretty then json.pretty else json.compact

/-- The document that bytes denote. -/
def documentOfBytes? (bytes : ByteArray) : Option CompositeData := do
  Wire.readCompositeData Json.nestingLimit (← Json.ofBytes? bytes)

/-- Writes a document as JSON. -/
def encodeJson (reg : Registry) (pretty : Bool) (document : CompositeData) : Result Encoded := do
  discard (reg.resolve document.data.id)
  pure { resourceId := some document.data.id.text, bytes := (jsonText pretty document).toUTF8 }

/-- Reads a document from JSON. -/
def decodeJson (reg : Registry) (encoded : Encoded) : Result CompositeData :=
  match documentOfBytes? encoded.bytes with
  | none => .error .json
  | some document => do
    discard (reg.resolve document.data.id)
    pure document

/-- Documents as JSON. -/
def jsonTree : Codec where
  format := "json-tree"
  encode := encodeJson
  decode reg _ := decodeJson reg

end Codec

/-- The formats that are available, by name. -/
abbrev Codecs := TreeMap String Codec

namespace Codecs

/-- The formats that are always there. -/
def standard : Codecs :=
  (∅ : Codecs).insert Codec.jsonTree.format Codec.jsonTree

/-- Makes a format available, and hands out the codec of the same name that it replaces. -/
def register (codecs : Codecs) (codec : Codec) : Option Codec × Codecs :=
  (codecs[codec.format]?, codecs.insert codec.format codec)

/-- Takes a format away, and hands out its codec. -/
def unregister (codecs : Codecs) (format : String) : Option Codec × Codecs :=
  (codecs[format]?, codecs.erase format)

/-- The names of the formats in their order. -/
def formats (codecs : Codecs) : List String := codecs.keys

/-- The codec of a format. -/
def find (codecs : Codecs) (format : String) : Result Codec :=
  match codecs[format]? with
  | some codec => .ok codec
  | none => .error (.unsupportedFormat format)

/-- The formats as diagnostics show them. -/
def text (codecs : Codecs) : String :=
  "SerializerRegistry \x7b formats: " ++ LeafValue.bracketed (codecs.formats.map Text.quoted) ++
    " \x7d"

end Codecs

end YangBinding
