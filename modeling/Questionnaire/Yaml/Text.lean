/-!
A text as the reader sees it: characters with their places, one element per line break however it is
written, and an end mark behind the last character. Places are a function of the text alone, so no
reading function keeps a line or column of its own.
-/
namespace Questionnaire.Yaml

/-- A place in a text: bytes from the start, and line and column from zero. -/
structure Mark where
  offset : Nat := 0
  line : Nat := 0
  column : Nat := 0
  deriving DecidableEq, Repr, Inhabited

namespace Mark

/-- Line and column as people count them. -/
def text (m : Mark) : String := s!"line {m.line + 1} column {m.column + 1}"

def isOrigin (m : Mark) : Bool := m.line == 0 && m.column == 0

/-- The place after a character that is no line break. -/
def after (m : Mark) (c : Char) : Mark := ⟨m.offset + c.utf8Size, m.line, m.column + 1⟩

/-- The place after a line break of so many bytes. -/
def nextLine (m : Mark) (bytes : Nat) : Mark := ⟨m.offset + bytes, m.line + 1, 0⟩

end Mark

/-- Line feed, line separator and paragraph separator; other spellings of a line break are read as a
line feed. -/
def isBreak (c : Char) : Bool := c == '\n' || c == '\u2028' || c == '\u2029'

def isBlank (c : Char) : Bool := c == ' ' || c == '\t'

/-- Stands for the end of the text, in which it cannot occur itself. -/
def endOfText : Char := '\x00'

def isEnd (c : Char) : Bool := c == endOfText

/-- Blank, line break or end of the text. -/
def isBlankOrEnd (c : Char) : Bool := isBlank c || isBreak c || isEnd c

def isBreakOrEnd (c : Char) : Bool := isBreak c || isEnd c

/-- The characters of anchors, tag handles and directive names. -/
def isWordChar (c : Char) : Bool := c.isAlphanum || c == '-' || c == '_'

structure Located where
  char : Char
  mark : Mark
  deriving DecidableEq, Repr

/-- The rest of a text. It ends with `endOfText`. -/
abbrev Text := List Located

namespace Text

/-- The characters that a text may hold. -/
def isAllowed (c : Char) : Bool :=
  let n := c.toNat
  n == 0x09 || n == 0x0A || n == 0x0D || (0x20 ≤ n && n ≤ 0x7E) || n == 0x85 ||
  (0xA0 ≤ n && n ≤ 0xD7FF) || (0xE000 ≤ n && n ≤ 0xFFFD) || (0x10000 ≤ n && n ≤ 0x10FFFF)

/-- Bytes before the first character that is not allowed. -/
def forbiddenAt? : List Char → Option Nat
  | [] => none
  | c :: cs => if isAllowed c then (forbiddenAt? cs).map (c.utf8Size + ·) else some 0

def locate (m : Mark) : List Char → Text
  | [] => [⟨endOfText, m⟩]
  | '\r' :: '\n' :: cs => ⟨'\n', m⟩ :: locate (m.nextLine 2) cs
  | c :: cs =>
    if c == '\r' || c == '\u0085' then ⟨'\n', m⟩ :: locate (m.nextLine c.utf8Size) cs
    else if isBreak c then ⟨c, m⟩ :: locate (m.nextLine c.utf8Size) cs
    else ⟨c, m⟩ :: locate (m.after c) cs

/-- The character at a distance. -/
def peekAt (n : Nat) (t : Text) : Char :=
  match t.drop n with
  | c :: _ => c.char
  | [] => endOfText

def peek (t : Text) : Char := peekAt 0 t

/-- The place of the next character. -/
def mark : Text → Mark
  | c :: _ => c.mark
  | [] => default

def column (t : Text) : Nat := t.mark.column

/-- The longest run of characters of a class, and what follows it. -/
def span (p : Char → Bool) : Text → List Char × Text
  | c :: t =>
    if p c.char then let (cs, rest) := span p t; (c.char :: cs, rest) else ([], c :: t)
  | [] => ([], [])

def skipWhile (p : Char → Bool) (t : Text) : Text := (span p t).2

/-- Blanks, then a comment up to the end of the line. The comment may follow without a blank. -/
def skipBlanksAndComment (t : Text) : Text :=
  let t := skipWhile isBlank t
  if t.peek == '#' then skipWhile (!isBreakOrEnd ·) t else t

/-- Three equal characters at the start of a line, followed by a blank or the end. -/
def atMarker (c : Char) (t : Text) : Bool :=
  t.column == 0 && t.peekAt 0 == c && t.peekAt 1 == c && t.peekAt 2 == c &&
    isBlankOrEnd (t.peekAt 3)

/-- A line that starts or ends a document. -/
def atDocumentMarker (t : Text) : Bool := t.atMarker '-' || t.atMarker '.'

end Text
end Questionnaire.Yaml
