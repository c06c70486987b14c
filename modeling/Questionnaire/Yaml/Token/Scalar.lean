import Questionnaire.Text.Digits
import Questionnaire.Yaml.Token

/-!
Reading scalars. The lines of a plain or quoted scalar are folded: a single break between two words
is a blank, of several breaks the first is dropped. A block scalar keeps its lines, or folds those
that do not start with a blank.
-/
namespace Questionnaire.Yaml.Token

/-- What stands between two words of a flow scalar. Once there is a break, blanks do not count. -/
structure Gap where
  blanks : List Char := []
  breaks : List Char := []
  broken : Bool := false

namespace Gap

/-- A first break that is a line feed is dropped or becomes a blank. An escaped break has no
character of its own. -/
def text (g : Gap) (escaped : Bool := false) : List Char :=
  if !g.broken then g.blanks
  else if escaped then g.breaks
  else match g.breaks with
    | ['\n'] => [' ']
    | '\n' :: more => more
    | breaks => breaks

/-- The blanks and breaks at the start of a text. Where a line is indented less than `indent`, its
indentation must not hold a tab. -/
def read (indent : Nat) (start : Mark) : Bool → Text → Except SyntaxError (Gap × Text)
  | broken, c :: t =>
    if isBlank c.char then
      if broken && c.mark.column < indent && c.char == '\t' then
        Text.fail (c :: t) .tabInIndentation .plainScalar start
      else do
        let (g, rest) ← read indent start broken t
        return (if broken then g else { g with blanks := c.char :: g.blanks }, rest)
    else if isBreak c.char then do
      let (g, rest) ← read indent start true t
      return ({ g with breaks := c.char :: g.breaks }, rest)
    else .ok ({ broken }, c :: t)
  | broken, [] => .ok ({ broken }, [])

end Gap

/-- The characters that end a plain scalar in flow context. -/
def isFlowStop (c : Char) : Bool := c == ',' || c == '[' || c == ']' || c == '{' || c == '}'

/-- The characters that must not follow a colon directly in flow context. -/
def isColonStop (c : Char) : Bool := c == '?' || isFlowStop c

/-- One word of a plain scalar. In flow context it also ends at the flow indicators, and a colon
must not stand directly before one. -/
def plainWord (flow : Bool) (start : Mark) : Text → Except SyntaxError (List Char × Text)
  | [] => .ok ([], [])
  | c :: t =>
    let next := Text.peek t
    if isBlankOrEnd c.char then .ok ([], c :: t)
    else if flow && c.char == ':' && isColonStop next then
      Text.fail (c :: t) .colonInFlow .plainScalar start
    else if (c.char == ':' && isBlankOrEnd next) || (flow && isFlowStop c.char) then
      .ok ([], c :: t)
    else do
      let (cs, rest) ← plainWord flow start t
      return (c.char :: cs, rest)

/-- A plain scalar from the gap in front of it on: its text, whether a line break follows it, and
the rest. It ends before a comment, a document marker, and outside of flow context before a line
indented less than `indent`; a gap before its end is no part of it. -/
def plain (flow : Bool) (indent : Nat) (start : Mark) :
    Nat → Gap → Text → Except SyntaxError (List Char × Bool × Text)
  | 0, gap, t => .ok ([], gap.broken, t)
  | fuel + 1, gap, t =>
    if t.atDocumentMarker || t.peek == '#' then .ok ([], gap.broken, t)
    else do
      let (word, t) ← plainWord flow start t
      if word.isEmpty then return ([], gap.broken, t)
      let read := gap.text ++ word
      if !isBlank t.peek && !isBreak t.peek then return (read, false, t)
      let (gap, t) ← Gap.read indent start false t
      if !flow && t.column < indent then return (read, gap.broken, t)
      let (more, broken, t) ← plain flow indent start fuel gap t
      return (read ++ more, broken, t)

/-- The escapes of one character. -/
def simpleEscape? (c : Char) : Option Char :=
  match c with
  | '0' => some '\x00'
  | 'a' => some '\x07'
  | 'b' => some '\x08'
  | 't' | '\t' => some '\t'
  | 'n' => some '\n'
  | 'v' => some '\x0b'
  | 'f' => some '\x0c'
  | 'r' => some '\r'
  | 'e' => some '\x1b'
  | ' ' | '"' | '/' | '\\' => some c
  | 'N' => some '\u0085'
  | '_' => some '\u00a0'
  | 'L' => some '\u2028'
  | 'P' => some '\u2029'
  | _ => none

/-- The number of hexadecimal digits that an escape announces. -/
def escapeDigits? (c : Char) : Option Nat :=
  match c with
  | 'x' => some 2
  | 'u' => some 4
  | 'U' => some 8
  | _ => none

/-- The number that the next `n` hexadecimal digits write. -/
def hexNumber? (n : Nat) (t : Text) : Option Nat :=
  natOfDigits? 16 ((t.take n).map (·.char))

/-- An escape other than that of a line break, from behind its backslash. -/
def escape (start : Mark) (t : Text) : Except SyntaxError (Char × Text) :=
  let c := t.peekAt 1
  let rest : Text := t.drop 2
  match simpleEscape? c, escapeDigits? c with
  | some r, _ => .ok (r, rest)
  | none, none => t.fail .unknownEscape .quotedEscape start
  | none, some n =>
    match hexNumber? n rest with
    | none => rest.fail .noHexDigit .quotedEscape start
    | some v =>
      if h : v.isValidChar then .ok (Char.ofNatAux v h, rest.drop n)
      else rest.fail .badEscapedCharacter .quotedEscape start

/-- A quoted scalar from behind its opening quote: its text, and what follows the closing quote. -/
def quoted (single : Bool) (start : Mark) :
    Nat → Text → Except SyntaxError (List Char × Text)
  | 0, t => .ok ([], t)
  | fuel + 1, t =>
    let c := t.peek
    if t.atDocumentMarker then t.fail .markerInQuotes .quotedScalar start
    else if isEnd c then t.fail .endInQuotes .quotedScalar start
    else if c == (if single then '\'' else '"') && !(single && t.peekAt 1 == '\'') then
      .ok ([], t.drop 1)
    else do
      let (read, t) ←
        if isBlank c || isBreak c then
          (Gap.read 0 start false t).map fun (gap, t) => (gap.text, t)
        else if single && c == '\'' then pure ([c], t.drop 2)
        else if !single && c == '\\' && isBreak (t.peekAt 1) then
          (Gap.read 0 start true (t.drop 2)).map fun (gap, t) => (gap.text true, t)
        else if !single && c == '\\' then (escape start t).map fun (r, t) => ([r], t)
        else pure ([c], t.drop 1)
      let (more, t) ← quoted single start fuel t
      return (read ++ more, t)

/-- What becomes of the line breaks at the end of a block scalar. -/
inductive Chomping
  | strip
  | clip
  | keep
  deriving DecidableEq

/-- The breaks of empty lines in front of a line, the widest indentation seen and the rest. With
`indent = 0` the indentation is still to be found out; a line may not have a tab in it. -/
def emptyLines (indent : Nat) (start : Mark) :
    Nat → Text → Except SyntaxError (List Char × Nat × Text)
  | widest, c :: t =>
    let inside := indent == 0 || c.mark.column < indent
    if inside && c.char == ' ' then emptyLines indent start widest t
    else
      let widest := max widest c.mark.column
      if inside && c.char == '\t' then Text.fail (c :: t) .tabAsIndentation .blockScalar start
      else if isBreak c.char then do
        let (breaks, w, rest) ← emptyLines indent start widest t
        return (c.char :: breaks, w, rest)
      else .ok ([], widest, c :: t)
  | widest, [] => .ok ([], widest, [])

/-- What stands in front of a line of a block scalar: the break of the last line, the breaks of
empty lines behind it, and whether the last line starts with a blank. -/
structure Join where
  lastBreak : List Char := []
  emptyBreaks : List Char := []
  blank : Bool := false

namespace Join

/-- When folding, a break between two lines that do not start with a blank is dropped, or becomes a
blank if no empty line follows. -/
def text (literal : Bool) (j : Join) (blank : Bool) : List Char :=
  if !literal && j.lastBreak == ['\n'] && !j.blank && !blank then
    if j.emptyBreaks.isEmpty then [' '] else j.emptyBreaks
  else j.lastBreak ++ j.emptyBreaks

def chomp (chomping : Chomping) (j : Join) : List Char :=
  match chomping with
  | .strip => []
  | .clip => j.lastBreak
  | .keep => j.lastBreak ++ j.emptyBreaks

end Join

/-- The lines that stand exactly at the indentation, or further inside. -/
def blockLines (literal : Bool) (indent : Nat) (start : Mark) (chomping : Chomping) :
    Nat → Join → Text → Except SyntaxError (List Char × Text)
  | 0, join, t => .ok (join.chomp chomping, t)
  | fuel + 1, join, t =>
    if t.column ≠ indent || isEnd t.peek then .ok (join.chomp chomping, t)
    else do
      let blank := isBlank t.peek
      let (line, t) := Text.span (!isBreakOrEnd ·) t
      let read := join.text literal blank ++ line
      if isEnd (Text.peek t) then return (read, t)
      let (emptyBreaks, _, rest) ← emptyLines indent start 0 (t.drop 1)
      let next : Join := ⟨[Text.peek t], emptyBreaks, blank⟩
      let (more, rest) ← blockLines literal indent start chomping fuel next rest
      return (read ++ more, rest)

def chomping? (c : Char) : Option Chomping :=
  if c == '+' then some .keep else if c == '-' then some .strip else none

/-- The indentation digit, if one is written. -/
def indentDigit (start : Mark) (t : Text) : Except SyntaxError (Option Nat × Text) :=
  if t.peek == '0' then t.fail .zeroIndentation .blockScalar start
  else if t.peek.isDigit then .ok (some (t.peek.toNat - '0'.toNat), t.drop 1)
  else .ok (none, t)

/-- The header of a block scalar from behind `|` or `>`: chomping and indentation in either order.
-/
def blockHeader (start : Mark) (t : Text) :
    Except SyntaxError (Chomping × Option Nat × Text) := do
  match chomping? t.peek with
  | some chomping =>
    let (digit, t) ← indentDigit start (t.drop 1)
    return (chomping, digit, t)
  | none =>
    let (digit, t) ← indentDigit start t
    match digit, chomping? t.peek with
    | some _, some chomping => return (chomping, digit, t.drop 1)
    | _, _ => return (.clip, digit, t)

/-- A block scalar from behind `|` or `>`. The indentation is that of `parent` (below zero at the
top level) plus the digit, or else the widest one up to the first line that is not empty. -/
def block (literal : Bool) (parent : Int) (start : Mark) (t : Text) :
    Except SyntaxError (List Char × Text) := do
  let (chomping, digit, t) ← blockHeader start t
  let t := t.skipBlanksAndComment
  if !isBreakOrEnd t.peek then t.fail .noCommentOrBreak .blockScalar start
  else
    let t := if isBreak t.peek then t.drop 1 else t
    let given := match digit with
      | some n => (max parent 0).toNat + n
      | none => 0
    let (breaks, widest, t) ← emptyLines given start 0 t
    let indent := if given = 0 then max widest (max (parent + 1).toNat 1) else given
    blockLines literal indent start chomping t.length { emptyBreaks := breaks } t

end Questionnaire.Yaml.Token
