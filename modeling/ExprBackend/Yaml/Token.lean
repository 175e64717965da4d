import ExprBackend.Yaml.Cursor

/-!
# Tokens

The signs and texts that a YAML text is made of. Block collections have tokens for their start
and end, which the indentation stands for.
-/

namespace ExprBackend.Yaml

inductive TokenKind where
  | streamEnd
  | versionDirective (major minor : Nat)
  /-- A tag handle and what it stands for. -/
  | tagDirective (handle stem : String)
  | documentStart
  | documentEnd
  | blockSequenceStart
  | blockMappingStart
  | blockEnd
  | flowSequenceStart
  | flowSequenceEnd
  | flowMappingStart
  | flowMappingEnd
  | blockEntry
  | flowEntry
  | key
  | value
  | alias (name : String)
  | anchor (name : String)
  | tag (handle suffix : String)
  | scalar (isPlain : Bool) (text : String)
  /-- From here on the text can not be divided into tokens. -/
  | unreadable
deriving DecidableEq, Repr, Inhabited

/-- A token and the line, counted from 0, where it starts. -/
structure Token where
  kind : TokenKind
  line : Nat
deriving DecidableEq, Repr, Inhabited

end ExprBackend.Yaml
