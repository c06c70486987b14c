import Questionnaire.Yaml.Token.Scalar

/-!
Reading anchors, aliases, tags and directives. A tag is kept as bytes, for its escapes may write any
octets whose shape, but not whose value, is that of UTF-8.
-/
namespace Questionnaire.Yaml.Token

/-- The octets of an escaped character, from the first `%`; `width` more are expected, or an octet
that announces them if it is zero. -/
def uriEscape (reading : Reading) (start : Mark) :
    Nat → Nat → Text → Except SyntaxError (List UInt8 × Text)
  | 0, _, t => .ok ([], t)
  | fuel + 1, width, t =>
    match t.peek == '%', hexNumber? 2 (t.drop 1) with
    | true, some v => do
      let octet := v.toUInt8
      let width ←
        if width = 0 then
          if v < 0x80 then pure 1
          else if v / 0x20 = 6 then pure 2
          else if v / 0x10 = 14 then pure 3
          else if v / 8 = 30 then pure 4
          else t.fail .badLeadingOctet reading start
        else if v / 0x40 = 2 then pure width
        else t.fail .badTrailingOctet reading start
      if width = 1 then return ([octet], t.drop 3)
      let (more, rest) ← uriEscape reading start fuel (width - 1) (t.drop 3)
      return (octet :: more, rest)
    | _, _ => t.fail .noUriEscape reading start

/-- The characters of a tag, `%` starting an escape. Only a verbatim tag or the replacement in a
directive may hold the last three. -/
def isUriChar (verbatim : Bool) (c : Char) : Bool :=
  isWordChar c || ";/?:@&=+$.%!~*'()".toList.contains c ||
    (verbatim && (c == ',' || c == '[' || c == ']'))

/-- The longest run of tag characters, with escapes resolved. -/
def uri (verbatim : Bool) (reading : Reading) (start : Mark) :
    Nat → Text → Except SyntaxError (List UInt8 × Text)
  | 0, t => .ok ([], t)
  | fuel + 1, t =>
    if !isUriChar verbatim t.peek then .ok ([], t)
    else do
      let (read, t) ←
        if t.peek == '%' then uriEscape reading start 4 0 t
        else pure ([t.peek.toNat.toUInt8], t.drop 1)
      let (more, t) ← uri verbatim reading start fuel t
      return (read ++ more, t)

/-- A run of tag characters that must not be empty. What follows an escaped zero octet is lost. -/
def nonEmptyUri (verbatim : Bool) (reading : Reading) (start : Mark) (t : Text) :
    Except SyntaxError (List UInt8 × Text) := do
  let (octets, rest) ← uri verbatim reading start t.length t
  if octets.isEmpty then rest.fail .noTagUri reading start
  return (octets.takeWhile (· ≠ 0), rest)

/-- `!`, word characters, and a second `!` if there is one. -/
def tagHandle (reading : Reading) (start : Mark) (t : Text) :
    Except SyntaxError (List Char × Text) :=
  if t.peek ≠ '!' then t.fail .noBang reading start
  else
    let (word, rest) := Text.span isWordChar (t.drop 1)
    if Text.peek rest == '!' then .ok ('!' :: word ++ ['!'], rest.drop 1)
    else .ok ('!' :: word, rest)

/-- An anchor or alias name, from the indicator. -/
def anchorName (reading : Reading) (t : Text) : Except SyntaxError (String × Text) :=
  let (name, rest) := Text.span isWordChar (t.drop 1)
  let c := Text.peek rest
  if name.isEmpty || !(isBlankOrEnd c || "?:,]\x7d%@\x60".toList.contains c) then
    Text.fail rest .noWord reading t.mark
  else .ok (String.ofList name, rest)

/-- The octets of ASCII text. -/
def octets (cs : List Char) : List UInt8 := cs.map (·.toNat.toUInt8)

/-- A tag as handle and suffix. A verbatim tag has no handle, and neither has the tag `!`. -/
def tagParts (start : Mark) (t : Text) : Except SyntaxError (Token.Kind × Text) := do
  if t.peekAt 1 == '<' then
    let (suffix, rest) ← nonEmptyUri true .tagUri start (t.drop 2)
    if rest.peek ≠ '>' then rest.fail .noVerbatimEnd .tag start
    return (.tag "" suffix, rest.drop 1)
  let (handle, rest) ← tagHandle .tag start t
  if 1 < handle.length && handle.getLast? == some '!' then
    let (suffix, rest) ← nonEmptyUri false .tagUri start rest
    return (.tag (String.ofList handle) suffix, rest)
  let (more, rest) ← uri false .tagUri start rest.length rest
  let suffix := (octets (handle.drop 1) ++ more).takeWhile (· ≠ 0)
  return (if suffix.isEmpty then .tag "" (octets ['!']) else .tag "!" suffix, rest)

/-- A tag ends before a blank, or in flow context before a comma. -/
def tag (flow : Bool) (t : Text) : Except SyntaxError (Token.Kind × Text) := do
  let (kind, rest) ← tagParts t.mark t
  if isBlankOrEnd rest.peek || (flow && rest.peek == ',') then return (kind, rest)
  rest.fail .noBlankOrBreak .tag t.mark

/-- A part of a version, of at most nine digits. -/
def versionNumber (start : Mark) (t : Text) : Except SyntaxError (Nat × Text) :=
  let (digits, rest) := Text.span Char.isDigit t
  if 9 < digits.length then Text.fail (t.drop 9) .longVersionNumber .versionDirective start
  else match natOfDigits? 10 digits with
    | some n => .ok (n, rest)
    | none => Text.fail rest .noVersionNumber .versionDirective start

/-- The rest of a `%YAML` directive behind its name. -/
def version (start : Mark) (t : Text) : Except SyntaxError (Token.Kind × Text) := do
  let (major, t) ← versionNumber start (t.skipWhile isBlank)
  if t.peek ≠ '.' then t.fail .noVersionPoint .versionDirective start
  let (minor, t) ← versionNumber start (t.drop 1)
  return (.version major minor, t)

/-- The rest of a `%TAG` directive behind its name. -/
def tagDirective (start : Mark) (t : Text) : Except SyntaxError (Token.Kind × Text) := do
  let (handle, t) ← tagHandle .tagDirectiveHandle start (t.skipWhile isBlank)
  if 1 < handle.length && handle.getLast? ≠ some '!' then
    t.fail .noBang .tagDirectiveWord start
  if !isBlank t.peek then t.fail .noBlank .tagDirective start
  let (replacement, t) ← nonEmptyUri true .tagDirectiveUri start (t.skipWhile isBlank)
  if !isBlankOrEnd t.peek then t.fail .noBlankOrBreak .tagDirective start
  return (.tagDirective (String.ofList handle) replacement, t)

/-- A directive from its `%` to the end of the line. -/
def directive (t : Text) : Except SyntaxError (Token.Kind × Text) := do
  let start := t.mark
  let (name, t) := Text.span isWordChar (t.drop 1)
  if name.isEmpty then t.fail .noDirectiveName .directive start
  if !isBlankOrEnd t.peek then t.fail .nonAlphabeticDirective .directive start
  let (kind, t) ←
    if name = ['Y', 'A', 'M', 'L'] then version start t
    else if name = ['T', 'A', 'G'] then tagDirective start t
    else t.fail .unknownDirective .directive start
  let t := t.skipBlanksAndComment
  if !isBreakOrEnd t.peek then t.fail .noCommentOrBreak .directive start
  return (kind, if isBreak t.peek then t.drop 1 else t)

end Questionnaire.Yaml.Token
