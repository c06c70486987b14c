import Questionnaire.Yaml.Token.Property

/-!
The tokens of a text. A mapping key without `?` is known only by the `:` behind it, so every place
where such a key may start is remembered, and the key token, with the start of a new mapping, is put
in there afterwards. Tokens from the first such place on are not given away before that is settled:
where a text breaks off with an error they are lost.
-/
namespace Questionnaire.Yaml

/-- A place where a mapping key may have started: the number of tokens before it, and whether only a
key can stand there. -/
structure PossibleKey where
  before : Nat
  required : Bool
  mark : Mark
  deriving DecidableEq, Repr

/-- The state between two tokens. Lists have their newest element first. -/
structure Scan where
  rest : Text
  tokens : List Token := []
  count : Nat := 0
  /-- Columns of the open block collections. -/
  indents : List Nat := []
  keyAllowed : Bool := true
  /-- The possible key of each open flow collection, and last that of the block level. -/
  keys : List (Option PossibleKey) := [none]
  /-- Has the last token been read? -/
  ended : Bool := false

namespace Scan

def mark (s : Scan) : Mark := s.rest.mark

/-- Are we inside of a flow collection? -/
def inFlow (s : Scan) : Bool := 1 < s.keys.length

/-- The column of the innermost block collection, below zero if there is none. -/
def indent (s : Scan) : Int :=
  match s.indents with
  | [] => -1
  | column :: _ => column

def push (s : Scan) (kind : Token.Kind) (start stop : Mark) : Scan :=
  { s with tokens := ⟨kind, start, stop⟩ :: s.tokens, count := s.count + 1 }

/-- Adds a token of one character or more, which `rest` follows. -/
def take (s : Scan) (kind : Token.Kind) (rest : Text) : Scan :=
  { s.push kind s.mark rest.mark with rest }

/-- Puts a token behind the first `before` ones. -/
def pushAt (s : Scan) (before : Nat) (kind : Token.Kind) (mark : Mark) : Scan :=
  { s with
    tokens := s.tokens.insertIdx (s.count - before) ⟨kind, mark, mark⟩
    count := s.count + 1 }

/-- Closes the block collections that start right of a column. -/
def closeBlocks (column : Int) (s : Scan) : Scan :=
  if s.inFlow then s
  else
    let closed := s.indents.takeWhile fun i : Nat => column < i
    closed.foldl (fun s _ => s.push .blockEnd s.mark s.mark)
      { s with indents := s.indents.drop closed.length }

/-- Opens a block collection at a column, unless there is one already; `before` says where. -/
def openBlock (s : Scan) (column : Nat) (before : Nat) (kind : Token.Kind) (mark : Mark) : Scan :=
  if !s.inFlow && s.indent < column then
    { s.pushAt before kind mark with indents := column :: s.indents }
  else s

/-- A key must end on its line, within 1024 bytes. -/
def isStale (s : Scan) (key : PossibleKey) : Bool :=
  key.mark.line < s.mark.line || key.mark.offset + 1024 < s.mark.offset

def dropKey (s : Scan) (key : PossibleKey) : Except SyntaxError (Option PossibleKey) :=
  if key.required then s.rest.fail .noKeyEnd .simpleKey key.mark else .ok none

/-- Forgets the possible keys that have become too long. -/
def dropStale (s : Scan) : Except SyntaxError Scan := do
  let keys ← s.keys.reverse.mapM fun key? => match key? with
    | some key => if s.isStale key then s.dropKey key else .ok (some key)
    | none => .ok none
  return { s with keys := keys.reverse }

/-- Forgets the possible key of the innermost level. -/
def clearKey (s : Scan) : Except SyntaxError Scan :=
  match s.keys with
  | some key :: keys => do return { s with keys := (← s.dropKey key) :: keys }
  | _ => .ok s

/-- Remembers that the next token may start a key. -/
def saveKey (s : Scan) : Except SyntaxError Scan :=
  if s.keyAllowed then do
    let s ← s.clearKey
    let required := !s.inFlow && s.indent == s.rest.column
    return { s with keys := some ⟨s.count, required, s.mark⟩ :: s.keys.drop 1 }
  else .ok s

/-- Skips blanks, comments and line breaks. Tabs count as blanks only where no key may start; a new
line outside of flow collections allows one. -/
def skipBlanks (inFlow : Bool) : Bool → Bool → Text → Bool × Text
  | keyAllowed, comment, c :: t =>
    if isBreak c.char then skipBlanks inFlow (keyAllowed || !inFlow) false t
    else if isEnd c.char then (keyAllowed, c :: t)
    else if comment then skipBlanks inFlow keyAllowed true t
    else if c.char == ' ' || (c.char == '\t' && (inFlow || !keyAllowed)) then
      skipBlanks inFlow keyAllowed false t
    else if c.char == '\uFEFF' && c.mark.column == 0 then skipBlanks inFlow keyAllowed false t
    else if c.char == '#' then skipBlanks inFlow keyAllowed true t
    else (keyAllowed, c :: t)
  | keyAllowed, _, [] => (keyAllowed, [])

/-- The end of the stream stands at the start of a line. -/
def streamEnd (s : Scan) : Except SyntaxError Scan := do
  let m := s.mark
  let m := if m.column = 0 then m else ⟨m.offset, m.line + 1, 0⟩
  let s : Scan := { s with rest := [⟨endOfText, m⟩] }
  let s ← (s.closeBlocks (-1)).clearKey
  return { s.push .streamEnd m m with keyAllowed := false, ended := true }

def directive (s : Scan) : Except SyntaxError Scan := do
  let s ← (s.closeBlocks (-1)).clearKey
  let (kind, rest) ← Token.directive s.rest
  return { s.take kind rest with keyAllowed := false }

def documentMarker (s : Scan) (kind : Token.Kind) : Except SyntaxError Scan := do
  let s ← (s.closeBlocks (-1)).clearKey
  return { s.take kind (s.rest.drop 3) with keyAllowed := false }

def flowStart (s : Scan) (kind : Token.Kind) : Except SyntaxError Scan := do
  let s ← s.saveKey
  return { s.take kind (s.rest.drop 1) with keys := none :: s.keys, keyAllowed := true }

def flowEnd (s : Scan) (kind : Token.Kind) : Except SyntaxError Scan := do
  let s ← s.clearKey
  return { s.take kind (s.rest.drop 1) with
    keys := if s.inFlow then s.keys.drop 1 else s.keys
    keyAllowed := false }

def flowEntry (s : Scan) : Except SyntaxError Scan := do
  let s ← s.clearKey
  return { s.take .flowEntry (s.rest.drop 1) with keyAllowed := true }

/-- Fails unless a block collection may start or go on here. -/
def checkAllowed (s : Scan) (problem : Problem) : Except SyntaxError Unit :=
  if !s.inFlow && !s.keyAllowed then .error ⟨problem, s.mark, none⟩ else .ok ()

def blockEntry (s : Scan) : Except SyntaxError Scan := do
  s.checkAllowed .sequenceEntryNotAllowed
  let s ← (s.openBlock s.rest.column s.count .blockSequenceStart s.mark).clearKey
  return { s.take .blockEntry (s.rest.drop 1) with keyAllowed := true }

def key (s : Scan) : Except SyntaxError Scan := do
  s.checkAllowed .keyNotAllowed
  let s ← (s.openBlock s.rest.column s.count .blockMappingStart s.mark).clearKey
  return { s.take .key (s.rest.drop 1) with keyAllowed := !s.inFlow }

/-- `:` turns what stands before it into a key if that is possible. -/
def value (s : Scan) : Except SyntaxError Scan := do
  let s ← match s.keys with
    | some key :: keys =>
      let s := s.pushAt key.before .key key.mark
      let s := s.openBlock key.mark.column key.before .blockMappingStart key.mark
      pure { s with keys := none :: keys, keyAllowed := false }
    | _ => do
      s.checkAllowed .valueNotAllowed
      let s := s.openBlock s.rest.column s.count .blockMappingStart s.mark
      pure { s with keyAllowed := !s.inFlow }
  return s.take .value (s.rest.drop 1)

def anchor (s : Scan) (reading : Reading) (kind : String → Token.Kind) :
    Except SyntaxError Scan := do
  let s ← s.saveKey
  let (name, rest) ← Token.anchorName reading s.rest
  return { s.take (kind name) rest with keyAllowed := false }

def tag (s : Scan) : Except SyntaxError Scan := do
  let s ← s.saveKey
  let (kind, rest) ← Token.tag s.inFlow s.rest
  return { s.take kind rest with keyAllowed := false }

def blockScalar (s : Scan) (style : Style) : Except SyntaxError Scan := do
  let s ← s.clearKey
  let (cs, rest) ← Token.block (style == .literal) s.indent s.mark (s.rest.drop 1)
  return { s.take (.scalar (String.ofList cs) style) rest with keyAllowed := true }

def quotedScalar (s : Scan) (style : Style) : Except SyntaxError Scan := do
  let s ← s.saveKey
  let (cs, rest) ← Token.quoted (style == .singleQuoted) s.mark s.rest.length (s.rest.drop 1)
  return { s.take (.scalar (String.ofList cs) style) rest with keyAllowed := false }

def plainScalar (s : Scan) : Except SyntaxError Scan := do
  let s ← s.saveKey
  let (cs, broken, rest) ←
    Token.plain s.inFlow (s.indent + 1).toNat s.mark s.rest.length {} s.rest
  return { s.take (.scalar (String.ofList cs) .plain) rest with keyAllowed := broken }

/-- The characters that start no plain scalar, or only before certain others. -/
def isIndicator (c : Char) : Bool :=
  c == '-' || c == '?' || c == ':' || c == ',' || c == '[' || c == ']' || c == '{' || c == '}' ||
  c == '#' || c == '&' || c == '*' || c == '!' || c == '|' || c == '>' || c == '\'' || c == '"' ||
  c == '%' || c == '@' || c == '\x60'

/-- The next token, and what has to come before it. -/
def next (s : Scan) : Except SyntaxError Scan := do
  let (keyAllowed, rest) := skipBlanks s.inFlow s.keyAllowed false s.rest
  let s ← dropStale { s with keyAllowed, rest }
  let s := s.closeBlocks s.rest.column
  let c := s.rest.peek
  let blankNext := isBlankOrEnd (s.rest.peekAt 1)
  if isEnd c then s.streamEnd
  else if s.rest.column == 0 && c == '%' then s.directive
  else if s.rest.atMarker '-' then s.documentMarker .documentStart
  else if s.rest.atMarker '.' then s.documentMarker .documentEnd
  else if c == '[' then s.flowStart .flowSequenceStart
  else if c == '{' then s.flowStart .flowMappingStart
  else if c == ']' then s.flowEnd .flowSequenceEnd
  else if c == '}' then s.flowEnd .flowMappingEnd
  else if c == ',' then s.flowEntry
  else if c == '-' && blankNext then s.blockEntry
  else if c == '?' && (s.inFlow || blankNext) then s.key
  else if c == ':' && (s.inFlow || blankNext) then s.value
  else if c == '*' then s.anchor .alias .alias
  else if c == '&' then s.anchor .anchor .anchor
  else if c == '!' then s.tag
  else if c == '|' && !s.inFlow then s.blockScalar .literal
  else if c == '>' && !s.inFlow then s.blockScalar .folded
  else if c == '\'' then s.quotedScalar .singleQuoted
  else if c == '"' then s.quotedScalar .doubleQuoted
  else if !(isBlank c || isIndicator c) || (c == '-' && !isBlank (s.rest.peekAt 1)) ||
      (!s.inFlow && (c == '?' || c == ':')) then s.plainScalar
  else s.rest.fail .strayCharacter .nextToken s.mark

/-- The number of tokens before the first possible key. -/
def settled (s : Scan) : Nat :=
  s.keys.foldl (fun n key? => match key? with
    | some key => min n key.before
    | none => n) s.count

/-- Tokens up to the end of the stream, or those settled before an error. -/
def run : Nat → Scan → List Token × Option SyntaxError
  | 0, s => (s.tokens.reverse, none)
  | fuel + 1, s =>
    if s.ended then (s.tokens.reverse, none)
    else match s.next >>= dropStale with
      | .ok s => run fuel s
      | .error e => (s.tokens.reverse.take s.settled, some e)

end Scan

/-- All tokens of a text, or those that come before an error. -/
def Token.ofString (text : String) : List Token × Option SyntaxError :=
  let cs := text.toList
  match Text.forbiddenAt? cs with
  | some offset => ([], some ⟨.controlCharacter, ⟨offset, 0, 0⟩, none⟩)
  | none =>
    let rest := Text.locate {} cs
    Scan.run (rest.length + 1) ({ rest : Scan }.push .streamStart {} {})

end Questionnaire.Yaml
