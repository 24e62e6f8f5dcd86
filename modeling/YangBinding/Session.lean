import YangBinding.Binding.Reader
import YangBinding.Codec.Basic
import YangBinding.Settings.Basic

/-!
# Sessions

A session holds what an application works with: the registry, the available formats and the
settings. Whatever is changed is changed in the session, and whatever is asked is answered from it.
-/

namespace YangBinding

open YangBinding.Tree (CompositeData)

/-- The registry, the formats and the settings of an application. -/
structure Session where
  registry : Registry := {}
  codecs : Codecs := .standard
  settings : Settings := {}

namespace Session

/-- A session in which no model is registered. -/
def new (settings : Settings) : Session :=
  { registry := { strictBindings := settings.strictBindings }, settings }

/-- The codec of a format, or of the one that the settings name. -/
def codec (s : Session) (format : Option String) : Result Codec :=
  s.codecs.find (format.getD s.settings.defaultFormat)

/-- The encoded form of a document. -/
def encode (s : Session) (document : CompositeData) (format : Option String) : Result Encoded := do
  (← s.codec format).encode s.registry s.settings.pretty document

/-- The document of an encoded form. -/
def decode (s : Session) (encoded : Encoded) (format : Option String) : Result CompositeData := do
  (← s.codec format).decode s.registry s.settings.pretty encoded

end Session

end YangBinding
