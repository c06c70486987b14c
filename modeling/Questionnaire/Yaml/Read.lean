import Questionnaire.Yaml.Node
import Questionnaire.Yaml.Resolve
import Questionnaire.Text.Quoted

/-!
Values from documents. Aliases are copied, so the work and the depth are bounded: a value has at
most 128 levels of collections, and aliases are followed at most a hundred times per event.
-/
namespace Questionnaire.Yaml

/-- The way to a part of a document. -/
inductive Path
  | root
  | index (parent : Path) (i : Nat)
  | field (parent : Path) (key : String)
  | unnamed (parent : Path)
  | alias (parent : Path)

def Path.text : Path → String
  | .root => "."
  | .index p i => p.text ++ "[" ++ toString i ++ "]"
  | .field .root key => key
  | .field p key => p.text ++ "." ++ key
  | .unnamed .root => "?"
  | .unnamed p => p.text ++ ".?"
  | .alias p => p.text

/-- What a tag may demand of a scalar. -/
inductive ScalarKind
  | null
  | bool
  | int
  | float
  deriving DecidableEq

def ScalarKind.text : ScalarKind → String
  | .null => "null"
  | .bool => "a boolean"
  | .int => "an integer"
  | .float => "a float"

inductive ValueProblem
  | wrongKind (text : String) (expected : ScalarKind)
  | bigInteger (n : Int)
  | duplicateKey (key : Value)

def ValueProblem.message : ValueProblem → String
  | .wrongKind text expected =>
    "invalid value: string " ++ Text.quoted text ++ ", expected " ++ expected.text
  | .bigInteger n =>
    "invalid type: integer \x60" ++ toString n ++ "\x60 as " ++
      (if n < 0 then "i128" else "u128") ++ ", expected any YAML value"
  | .duplicateKey key =>
    match key with
    | .null => "duplicate entry with null key"
    | .bool b => "duplicate entry with key \x60" ++ toString b ++ "\x60"
    | .num n => "duplicate entry with key " ++ n.text
    | .str s => "duplicate entry with key " ++ Text.quoted s
    | _ => "duplicate entry in YAML map"

inductive ReadError
  | malformed (e : SyntaxError)
  | endOfStream
  | tooDeep (mark : Mark)
  | tooManyAliases
  | severalDocuments
  | badValue (problem : ValueProblem) (path : Path) (mark : Mark)

/-- The start of the text and the root of the document are not named as places. -/
def ReadError.message : ReadError → String
  | .malformed e => e.message
  | .endOfStream => "EOF while parsing a value"
  | .tooDeep mark => "recursion limit exceeded" ++ place mark
  | .tooManyAliases => "repetition limit exceeded"
  | .severalDocuments =>
    "deserializing from YAML containing more than one document is not supported"
  | .badValue problem path mark =>
    (if path.text == "." then "" else path.text ++ ": ") ++ problem.message ++ place mark
where
  place (mark : Mark) : String := if mark.isOrigin then "" else " at " ++ mark.text

/-- The levels of collections that a value may have. -/
def maxDepth : Nat := 128

/-- Values from nodes, with the number of aliases that have been followed. -/
abbrev Reader := StateT Nat (Except ReadError)

/-- A local tag, from its bytes. -/
def localTag? (tag : Option (List UInt8)) : Option Tag :=
  match tag with
  | some (0x21 :: bytes) =>
    let bytes := if bytes.isEmpty then [0x21] else bytes
    (String.fromUTF8? ⟨bytes.toArray⟩).map Tag.ofText
  | _ => none

/-- The kind that a standard tag demands. -/
def standardKind? (tag : List UInt8) : Option ScalarKind :=
  if tag = Token.octets "tag:yaml.org,2002:bool".toList then some .bool
  else if tag = Token.octets "tag:yaml.org,2002:int".toList then some .int
  else if tag = Token.octets "tag:yaml.org,2002:float".toList then some .float
  else if tag = Token.octets "tag:yaml.org,2002:null".toList then some .null
  else none

/-- A scalar that must be of a kind, whatever its style. -/
def resolveAs (kind : ScalarKind) (text : String) : Except ValueProblem Value :=
  let wrong := .error (.wrongKind text kind)
  match kind with
  | .null => if isNullText text then .ok .null else wrong
  | .bool => match boolOfText? text with
    | some b => .ok (.bool b)
    | none => wrong
  | .int => match resolveInt? text with
    | some (.value v) => .ok v
    | some (.tooBig n) => .error (.bigInteger n)
    | none => wrong
  | .float => match floatOfText? text with
    | some x => .ok (.num (.float x))
    | none => wrong

/-- A scalar. Without a tag, or with one that does not count any more, a plain scalar is what its
text says; an unknown tag that is not local makes it a string. -/
def resolveScalar (tag : Option (List UInt8)) (text : String) (style : Style) :
    Except ValueProblem Value :=
  let untagged := match style with
    | .plain => match resolvePlain text with
      | .value v => .ok v
      | .tooBig n => .error (.bigInteger n)
    | _ => .ok (.str text)
  match tag with
  | none => untagged
  | some bytes => match standardKind? bytes with
    | some kind => resolveAs kind text
    | none => if bytes.head? = some 0x21 then untagged else .ok (.str text)

namespace Document

/-- Follows an alias, if the node is one. -/
def follow (d : Document) (tagged : Bool) (path : Path) (node : Node) :
    Reader (Bool × Path × Node) :=
  match node with
  | .alias anchor => do
    let jumps ← modifyGet fun n => (n + 1, n + 1)
    if d.size * 100 < jumps then throw .tooManyAliases
    match d.target? anchor with
    | some target => return (false, .alias path, target)
    | none => throw .endOfStream
  | _ => return (tagged, path, node)

/-- The path to the value of a field. Only keys that are written as scalars are named. -/
def fieldPath (path : Path) : Node → Path
  | .scalar _ text _ _ => .field path text
  | _ => .unnamed path

/-- The value of a node. With `tagged` set the node's own tag does not count: a mapping with a tag
is read so, and with it all its keys. -/
def value (d : Document) : Nat → Bool → Path → Node → Reader Value
  | depth, tagged, path, node => do
    let (tagged, path, node) ← d.follow tagged path node
    let finish (tag : Option Tag) (v : Value) : Value := match tag with
      | some t => .tagged t v
      | none => v
    match node with
    | .scalar tag text style mark =>
      let tag? := if tagged then none else localTag? tag
      match resolveScalar (if tagged || tag?.isSome then none else tag) text style with
      | .ok v => return finish tag? v
      | .error problem => throw (.badValue problem path mark)
    | .seq tag mark items =>
      let tag? := if tagged then none else localTag? tag
      match depth with
      | 0 => throw (.tooDeep mark)
      | depth + 1 =>
        let values ← items.zipIdx.mapM fun (item, i) => value d depth false (.index path i) item
        return finish tag? (.seq values)
    | .map tag mark entries =>
      let tag? := if tagged then none else localTag? tag
      match depth with
      | 0 => throw (.tooDeep mark)
      | depth + 1 =>
        let entries ← entries.foldlM (fun (read : Mapping) (k, v) => do
          let key ← value d depth (tagged || tag?.isSome) path k
          if Mapping.contains key read then
            throw (.badValue (.duplicateKey key) path mark)
          return read ++ [(key, ← value d depth false (fieldPath path k) v)]) []
        return finish tag? (.map entries)
    | .alias _ => throw .endOfStream
    | .cut => throw (match d.failure with
      | some e => .malformed e
      | none => .endOfStream)

end Document

/-- The value that a text holds. Where the text is malformed behind the point that reading a value
has come to, that is the error; a second document is one too. -/
def Value.ofString (text : String) : Except ReadError Value := do
  let d := Document.ofString text
  let (v, _) ← (d.value maxDepth false .root d.root).run 0
  if let some e := d.failure then throw (.malformed e)
  if d.more then throw .severalDocuments
  return v

end Questionnaire.Yaml
