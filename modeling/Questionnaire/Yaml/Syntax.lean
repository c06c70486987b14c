import Questionnaire.Yaml.Text

/-!
What can be wrong with a text as YAML: the problem and its place, and what was being read when it
was found and where that began. The wording stands in two functions.
-/
namespace Questionnaire.Yaml

inductive Problem
  | controlCharacter
  | noKeyEnd
  | strayCharacter
  | sequenceEntryNotAllowed
  | keyNotAllowed
  | valueNotAllowed
  | unknownDirective
  | noDirectiveName
  | nonAlphabeticDirective
  | noCommentOrBreak
  | noVersionNumber
  | longVersionNumber
  | noVersionPoint
  | noBlank
  | noBlankOrBreak
  | noBang
  | noTagUri
  | noVerbatimEnd
  | noUriEscape
  | badLeadingOctet
  | badTrailingOctet
  | noWord
  | zeroIndentation
  | tabAsIndentation
  | tabInIndentation
  | markerInQuotes
  | endInQuotes
  | unknownEscape
  | noHexDigit
  | badEscapedCharacter
  | colonInFlow
  | noDocumentStart
  | duplicateVersion
  | incompatibleVersion
  | duplicateTagDirective
  | undefinedTagHandle
  | noNodeContent
  | noSequenceDash
  | noMappingKey
  | noFlowSequenceEnd
  | noFlowMappingEnd
  | unknownAnchor
  deriving DecidableEq, Repr

def Problem.message : Problem → String
  | .controlCharacter => "control characters are not allowed"
  | .noKeyEnd => "could not find expected ':'"
  | .strayCharacter => "found character that cannot start any token"
  | .sequenceEntryNotAllowed => "block sequence entries are not allowed in this context"
  | .keyNotAllowed => "mapping keys are not allowed in this context"
  | .valueNotAllowed => "mapping values are not allowed in this context"
  | .unknownDirective => "found unknown directive name"
  | .noDirectiveName => "could not find expected directive name"
  | .nonAlphabeticDirective => "found unexpected non-alphabetical character"
  | .noCommentOrBreak => "did not find expected comment or line break"
  | .noVersionNumber => "did not find expected version number"
  | .longVersionNumber => "found extremely long version number"
  | .noVersionPoint => "did not find expected digit or '.' character"
  | .noBlank => "did not find expected whitespace"
  | .noBlankOrBreak => "did not find expected whitespace or line break"
  | .noBang => "did not find expected '!'"
  | .noTagUri => "did not find expected tag URI"
  | .noVerbatimEnd => "did not find the expected '>'"
  | .noUriEscape => "did not find URI escaped octet"
  | .badLeadingOctet => "found an incorrect leading UTF-8 octet"
  | .badTrailingOctet => "found an incorrect trailing UTF-8 octet"
  | .noWord => "did not find expected alphabetic or numeric character"
  | .zeroIndentation => "found an indentation indicator equal to 0"
  | .tabAsIndentation => "found a tab character where an indentation space is expected"
  | .tabInIndentation => "found a tab character that violates indentation"
  | .markerInQuotes => "found unexpected document indicator"
  | .endInQuotes => "found unexpected end of stream"
  | .unknownEscape => "found unknown escape character"
  | .noHexDigit => "did not find expected hexadecimal number"
  | .badEscapedCharacter => "found invalid Unicode character escape code"
  | .colonInFlow => "found unexpected ':'"
  | .noDocumentStart => "did not find expected <document start>"
  | .duplicateVersion => "found duplicate %YAML directive"
  | .incompatibleVersion => "found incompatible YAML document"
  | .duplicateTagDirective => "found duplicate %TAG directive"
  | .undefinedTagHandle => "found undefined tag handle"
  | .noNodeContent => "did not find expected node content"
  | .noSequenceDash => "did not find expected '-' indicator"
  | .noMappingKey => "did not find expected key"
  | .noFlowSequenceEnd => "did not find expected ',' or ']'"
  | .noFlowMappingEnd => "did not find expected ',' or '\x7d'"
  | .unknownAnchor => "unknown anchor"

/-- What was being read. The `in…` ones look at characters, the others at what these make up. -/
inductive Reading
  | simpleKey
  | nextToken
  | directive
  | versionDirective
  | tagDirective
  | tagDirectiveHandle
  | tagDirectiveWord
  | tagDirectiveUri
  | tag
  | tagUri
  | anchor
  | alias
  | blockScalar
  | quotedScalar
  | quotedEscape
  | plainScalar
  | node
  | blockNode
  | flowNode
  | blockSequence
  | blockMapping
  | flowSequence
  | flowMapping
  deriving DecidableEq, Repr

def Reading.message : Reading → String
  | .simpleKey => "while scanning a simple key"
  | .nextToken => "while scanning for the next token"
  | .directive => "while scanning a directive"
  | .versionDirective => "while scanning a %YAML directive"
  | .tagDirective => "while scanning a %TAG directive"
  | .tagDirectiveHandle => "while scanning a tag directive"
  | .tagDirectiveWord => "while parsing a tag directive"
  | .tagDirectiveUri => "while parsing a %TAG directive"
  | .tag => "while scanning a tag"
  | .tagUri => "while parsing a tag"
  | .anchor => "while scanning an anchor"
  | .alias => "while scanning an alias"
  | .blockScalar => "while scanning a block scalar"
  | .quotedScalar => "while scanning a quoted scalar"
  | .quotedEscape => "while parsing a quoted scalar"
  | .plainScalar => "while scanning a plain scalar"
  | .node => "while parsing a node"
  | .blockNode => "while parsing a block node"
  | .flowNode => "while parsing a flow node"
  | .blockSequence => "while parsing a block collection"
  | .blockMapping => "while parsing a block mapping"
  | .flowSequence => "while parsing a flow sequence"
  | .flowMapping => "while parsing a flow mapping"

structure SyntaxError where
  problem : Problem
  mark : Mark
  reading : Option (Reading × Mark) := none
  deriving DecidableEq, Repr

namespace SyntaxError

/-- The start of the text is not named as a place; an offset without line and column is. What was
being read has a place of its own only if that differs. -/
def message (e : SyntaxError) : String :=
  let place :=
    if !e.mark.isOrigin then " at " ++ e.mark.text
    else if e.mark.offset ≠ 0 then " at position " ++ toString e.mark.offset
    else ""
  let reading := match e.reading with
    | none => ""
    | some (r, m) =>
      ", " ++ r.message ++
        if !m.isOrigin && (m.line ≠ e.mark.line || m.column ≠ e.mark.column) then " at " ++ m.text
        else ""
  e.problem.message ++ place ++ reading

end SyntaxError

/-- Fails at the next character of the text. -/
def Text.fail {α : Type} (t : Text) (problem : Problem) (reading : Reading) (start : Mark) :
    Except SyntaxError α :=
  .error ⟨problem, t.mark, some (reading, start)⟩

end Questionnaire.Yaml
