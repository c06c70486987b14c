import Questionnaire.Yaml.Resolve
import Questionnaire.Yaml.Text

/-!
Writing scalars: which of the styles a string can be written in, and how each of them looks. Lines
are never broken to fit a width.
-/
namespace Questionnaire.Yaml.Write

/-- The styles that are written. A literal block is used for strings with line feeds only. -/
inductive Look
  | plain
  | singleQuoted
  | doubleQuoted
  | literal
  deriving DecidableEq, Repr

/-- The characters that can be written as they are. -/
def isPrintable (c : Char) : Bool :=
  let n := c.toNat
  n == 0x0A || (0x20 ≤ n && n ≤ 0x7E) || (0xA0 ≤ n && n ≤ 0xD7FF) ||
  (0xE000 ≤ n && n ≤ 0xFFFD && n ≠ 0xFEFF) || 0x10000 ≤ n

/-- Line breaks in written text. -/
def isLineBreak (c : Char) : Bool := isBreak c || c == '\r' || c == '\u0085'

def isSpaceOrEnd (c : Char) : Bool := isBlank c || isLineBreak c || isEnd c

/-- The characters that start something else than a plain scalar. -/
def isOpening (c : Char) : Bool :=
  c == '#' || c == ',' || c == '[' || c == ']' || c == '{' || c == '}' || c == '&' || c == '*' ||
  c == '!' || c == '|' || c == '>' || c == '\'' || c == '"' || c == '%' || c == '@' || c == '\x60'

/-- Does a character with its neighbours look like an indicator? The neighbours of the first and the
last character are the end of the text. -/
def isIndicatorAt (first : Bool) (before c after : Char) : Bool :=
  if first then
    isOpening c || ((c == '?' || c == ':' || c == '-') && isSpaceOrEnd after)
  else (c == ':' && isSpaceOrEnd after) || (c == '#' && isSpaceOrEnd before)

/-- Is there an indicator behind the character `before`? -/
def hasIndicator (first : Bool) (before : Char) : List Char → Bool
  | [] => false
  | c :: cs => isIndicatorAt first before c (cs.headD endOfText) || hasIndicator false c cs

/-- Does a pair of neighbouring characters satisfy the two conditions? -/
def hasPair (p q : Char → Bool) : List Char → Bool
  | c :: d :: cs => (p c && q d) || hasPair p q (d :: cs)
  | _ => false

def isMarkerLine (cs : List Char) : Bool :=
  cs.take 3 == ['-', '-', '-'] || cs.take 3 == ['.', '.', '.']

def isSpace (c : Char) : Bool := c == ' '

/-- Can the characters stand in a plain scalar of a block collection? -/
def allowsPlain (cs : List Char) : Bool :=
  let outside (c : Char) : Bool := isSpace c || isLineBreak c
  !(cs.head?.any outside || cs.getLast?.any outside || cs.any isLineBreak || isMarkerLine cs ||
    hasIndicator true ' ' cs || cs.any (!isPrintable ·))

/-- A single-quoted scalar has no spaces next to a line break. -/
def allowsSingleQuoted (cs : List Char) : Bool :=
  !(hasPair isSpace isLineBreak cs || hasPair isLineBreak isSpace cs || cs.any (!isPrintable ·))

/-- A literal block has no spaces in front of a line break or at its end. -/
def allowsLiteral (cs : List Char) : Bool :=
  !(cs.isEmpty || cs.getLast?.any isSpace || hasPair isSpace isLineBreak cs ||
    cs.any (!isPrintable ·))

/-- Would the text be read as another value, were it written plain? A zero and more digits would
not, but is quoted as well. -/
def looksLikeOther (s : String) : Bool :=
  match resolvePlain s with
  | .value (.str _) => isZeroLed s.toList
  | _ => true

/-- The style of a string: a literal block for several lines and else plain text if possible, then
single quotes, then double quotes. -/
def Look.ofString (s : String) : Look :=
  let cs := s.toList
  if cs.contains '\n' then (if allowsLiteral cs then .literal else .doubleQuoted)
  else if !looksLikeOther s && allowsPlain cs then .plain
  else if allowsSingleQuoted cs then .singleQuoted
  else .doubleQuoted

/-- So many blanks. -/
def pad (n : Nat) : String := String.ofList (List.replicate n ' ')

/-- Hexadecimal digits in capitals, padded with zeros. -/
def hexText (width n : Nat) : List Char :=
  let ds := (Nat.toDigits 16 n).map Char.toUpper
  List.replicate (width - ds.length) '0' ++ ds

/-- A character in double quotes. -/
def escaped (c : Char) : List Char :=
  if c == '"' || c == '\\' then ['\\', c]
  else if isPrintable c && !isBreak c then [c]
  else
    let n := c.toNat
    match n with
    | 0x00 => ['\\', '0']
    | 0x07 => ['\\', 'a']
    | 0x08 => ['\\', 'b']
    | 0x09 => ['\\', 't']
    | 0x0A => ['\\', 'n']
    | 0x0B => ['\\', 'v']
    | 0x0C => ['\\', 'f']
    | 0x0D => ['\\', 'r']
    | 0x1B => ['\\', 'e']
    | 0x85 => ['\\', 'N']
    | 0x2028 => ['\\', 'L']
    | 0x2029 => ['\\', 'P']
    | _ =>
      if n ≤ 0xFF then '\\' :: 'x' :: hexText 2 n
      else if n ≤ 0xFFFF then '\\' :: 'u' :: hexText 4 n
      else '\\' :: 'U' :: hexText 8 n

/-- Text with every line behind a break indented, the last one also if it is empty where `close`
holds. In single quotes a quote is written twice. -/
def indented (indent : Nat) (quotes close : Bool) (atStart : Bool) : List Char → List Char
  | [] => if atStart && close then List.replicate indent ' ' else []
  | c :: cs =>
    if isLineBreak c then c :: indented indent quotes close true cs
    else
      (if atStart then List.replicate indent ' ' else []) ++
        (if quotes && c == '\'' then [c, c] else [c]) ++ indented indent quotes close false cs

/-- What follows `|`: an indentation where the text starts with a blank or a break, and `-` or `+`
unless the text ends with exactly one break. -/
def blockHints (cs : List Char) : String :=
  let indentation := if cs.head?.any fun c => isSpace c || isLineBreak c then "2" else ""
  let chomping := match cs.reverse with
    | c :: d :: _ => if !isLineBreak c then "-" else if isLineBreak d then "+" else ""
    | [c] => if isLineBreak c then "+" else "-"
    | [] => "-"
  indentation ++ chomping

/-- A scalar in a style, its lines behind the first one indented. A literal block that ends with a
break ends the line. -/
def Look.text (look : Look) (indent : Nat) (s : String) : String :=
  let cs := s.toList
  match look with
  | .plain => s
  | .singleQuoted => "'" ++ String.ofList (indented indent true true false cs) ++ "'"
  | .doubleQuoted => "\"" ++ String.ofList (cs.flatMap escaped) ++ "\""
  | .literal => "|" ++ blockHints cs ++ "\n" ++ String.ofList (indented indent false false true cs)

/-- Does the written scalar end its line itself? -/
def Look.endsLine (look : Look) (s : String) : Bool :=
  look == .literal && s.toList.getLast?.any isLineBreak

end Questionnaire.Yaml.Write
