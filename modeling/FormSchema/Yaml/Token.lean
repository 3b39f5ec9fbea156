/-!
# YAML tokens

The tokens of a YAML text. Where blocks begin and end follows from indentation, and the token that
announces a key stands before the key even where the text shows it only by the colon behind it.
-/

namespace FormSchema.Yaml

inductive Token where
  -- the version of the language that a document asks for
  | version (major minor : Nat)
  -- a name for the beginning of tags
  | handle (name beginning : String)
  | documentStart
  | documentEnd
  | blockSequence
  | blockMapping
  -- the end of a block sequence or a block mapping
  | blockEnd
  | flowSequence
  | flowSequenceEnd
  | flowMapping
  | flowMappingEnd
  -- the hyphen before an item of a block sequence
  | item
  -- the comma between entries of a flow collection
  | separator
  | key
  | value
  | alias (name : String)
  | anchor (name : String)
  -- a tag: the handle it begins with and the rest; a verbatim tag has an empty handle
  | tag (handle rest : String)
  | scalar (plain : Bool) (text : String)
deriving DecidableEq, Inhabited

end FormSchema.Yaml
