/-!
# Tokens of YAML

Besides what is written, tokens tell where block collections begin and end, which is written by
indentation only. The end of the text is the end of the tokens.
-/

namespace Changeover.Yaml

inductive Style where
  | plain | singleQuoted | doubleQuoted | literal | folded
  deriving DecidableEq, Repr

inductive Token where
  | version (major minor : Nat)
  /-- Tags with this handle begin with that text. -/
  | handle (name meaning : String)
  | documentStart | documentEnd
  | blockSequence | blockMapping | blockEnd
  | sequenceOpen | sequenceClose
  | mappingOpen | mappingClose
  | blockEntry | flowEntry
  | key | value
  | alias (name : String)
  | anchor (name : String)
  /-- A tag without a handle is complete. -/
  | tag (handle : Option String) (suffix : String)
  | scalar (style : Style) (text : String)
  deriving DecidableEq, Repr

end Changeover.Yaml
