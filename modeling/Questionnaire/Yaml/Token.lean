import Questionnaire.Yaml.Syntax

/-! The words of a text: what indentation and indicators mean has been worked out in them. -/
namespace Questionnaire.Yaml

/-- How a scalar is written. -/
inductive Style
  | plain
  | singleQuoted
  | doubleQuoted
  | literal
  | folded
  deriving DecidableEq, Repr

inductive Token.Kind
  | streamStart
  | streamEnd
  | version (major minor : Nat)
  | tagDirective (handle : String) (replacement : List UInt8)
  | documentStart
  | documentEnd
  | blockSequenceStart
  | blockMappingStart
  | blockEnd
  | flowSequenceStart
  | flowSequenceEnd
  | flowMappingStart
  | flowMappingEnd
  | blockEntry
  | flowEntry
  | key
  | value
  | alias (name : String)
  | anchor (name : String)
  | tag (handle : String) (suffix : List UInt8)
  | scalar (text : String) (style : Style)
  deriving DecidableEq, Repr

structure Token where
  kind : Token.Kind
  start : Mark
  stop : Mark
  deriving DecidableEq, Repr

end Questionnaire.Yaml
