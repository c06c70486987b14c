import Questionnaire.Yaml.Write.Scalar
import Questionnaire.Yaml.Write.Nesting

/-!
Values as text: block collections, two blanks for each level. A sequence that is the value of a key
stands at the indentation of the key; what follows `-`, or the `?` and `:` of a long key, starts on
the same line unless it has a tag. Only empty collections are written in brackets.
-/
namespace Questionnaire.Yaml
namespace Write

/-- The characters that a tag may hold as they are. -/
def isTagChar (c : Char) : Bool := isWordChar c || ";/?:@&=+$,.~*'()[]".toList.contains c

/-- The bytes of a tag's text up to the first zero. -/
def tagBytes (t : Tag) : List UInt8 :=
  let text := if t.name.toList.head? == some '!' then t.name else "!" ++ t.name
  text.toUTF8.toList.takeWhile (· ≠ 0)

def tagText (t : Tag) : String :=
  let write (bytes : List UInt8) : String := String.ofList <| bytes.flatMap fun b =>
    let c := Char.ofNat b.toNat
    if isTagChar c then [c] else '%' :: hexText 2 b.toNat
  match tagBytes t with
  | [b] => "!<" ++ write [b] ++ ">"
  | bytes => "!" ++ write (bytes.drop 1)

/-- A value on one line: a scalar or an empty collection. -/
def inline? : Value → Option String
  | .null => some "null"
  | .bool b => some (if b then "true" else "false")
  | .num n => some n.text
  | .seq [] => some "[]"
  | .map [] => some "\x7b\x7d"
  | _ => none

/-- The longest key, in bytes, that is not announced by `?`. -/
def maxKey : Nat := 128

/-- The text of a key that stands in front of its colon: short, and on one line. -/
def simpleKey? (tag : Option Tag) (v : Value) : Option String :=
  let tagSize := (tag.map fun t => (tagBytes t).length).getD 0
  let before := (tag.map fun t => tagText t ++ " ").getD ""
  match v with
  | .str s =>
    if s.toList.any isLineBreak || maxKey < tagSize + s.utf8ByteSize then none
    else some (before ++ (Look.ofString s).text 0 s)
  | v => match inline? v with
    | some text =>
      let size := match v with
        | .seq _ | .map _ => 0
        | _ => text.utf8ByteSize
      if maxKey < tagSize + size then none else some (before ++ text)
    | none => none

/-- The text of a short key with its tag, if it has one. -/
def keyText? : Value → Option String
  | .tagged t v => simpleKey? (some t) v
  | v => simpleKey? none v

/-- A tag behind an indicator. -/
def tagPart : Option Tag → String
  | some t => " " ++ tagText t
  | none => ""

/-- What a node is written behind. -/
inductive Place
  /-- The dash of an item. -/
  | item
  /-- The `?` of a long key, or the colon behind one. -/
  | mark
  /-- A short key and its colon. -/
  | key
  deriving DecidableEq, Repr

mutual

/-- A node behind the indicator of a collection that is indented by `n`, to the end of its last
line. -/
def node (n : Nat) (place : Place) (tag : Option Tag) : Value → String
  | .tagged t v => node n place (some t) v
  | .str s =>
    let look := Look.ofString s
    tagPart tag ++ " " ++ look.text (n + 2) s ++ if look.endsLine s then "" else "\n"
  | .seq (v :: vs) =>
    match place, tag with
    | .item, none | .mark, none => " " ++ items (n + 2) true (v :: vs)
    | .item, some _ => tagPart tag ++ "\n" ++ items (n + 2) false (v :: vs)
    | _, _ => tagPart tag ++ "\n" ++ items n false (v :: vs)
  | .map (e :: es) =>
    if place ≠ .key && tag.isNone then " " ++ entries (n + 2) true (e :: es)
    else tagPart tag ++ "\n" ++ entries (n + 2) false (e :: es)
  | v => tagPart tag ++ " " ++ (inline? v).getD "" ++ "\n"

/-- The items of a sequence, the first one without indentation if `compact` holds. -/
def items (n : Nat) (compact : Bool) : List Value → String
  | [] => ""
  | v :: vs => (if compact then "" else pad n) ++ "-" ++ node n .item none v ++ items n false vs

/-- The entries of a mapping, the first one without indentation if `compact` holds. -/
def entries (n : Nat) (compact : Bool) : List (Value × Value) → String
  | [] => ""
  | (k, v) :: es =>
    (if compact then "" else pad n) ++
    (match keyText? k with
      | some text => text ++ ":" ++ node n .key none v
      | none => "?" ++ node n .mark none k ++ pad n ++ ":" ++ node n .mark none v) ++
    entries n false es

end
end Write

/-- The text of a mapping that can be written. -/
def Mapping.text : Mapping → String
  | [] => "\x7b\x7d\n"
  | entries => Write.entries 0 false entries

/-- A mapping as a document of its own. -/
def Mapping.write (entries : Mapping) : Except Write.WriteError String :=
  match Write.fault? (.map entries) with
  | some e => .error e
  | none => .ok (Mapping.text entries)

end Questionnaire.Yaml
