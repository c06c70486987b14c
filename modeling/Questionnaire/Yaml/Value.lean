import Questionnaire.Decimal.Shortest

/-!
YAML values. A mapping is a list of entries, so its order is part of the value; equality of values,
which decides what counts as one key, does not look at the order of mappings.
-/
namespace Questionnaire.Yaml

/-- Integers and floats are different numbers even when they are equal in value. -/
inductive Number
  | int (value : Int)
  | float (value : Binary64)
  deriving DecidableEq, Repr

namespace Number

def text : Number → String
  | .int n => toString n
  | .float x => x.text

def same : Number → Number → Bool
  | .int a, .int b => a == b
  | .float a, .float b => a.same b
  | _, _ => false

end Number

/-- The name of a local tag without its leading `!`; the tag `!` alone has the name `!`. -/
structure Tag where
  name : String
  deriving DecidableEq, Repr

namespace Tag

/-- One leading `!` is no part of the name, unless it is all there is. -/
def ofText (text : String) : Tag :=
  match text.toList with
  | '!' :: c :: cs => ⟨String.ofList (c :: cs)⟩
  | _ => ⟨text⟩

def text (tag : Tag) : String := "!" ++ tag.name

end Tag

inductive Value
  | null
  | bool (value : Bool)
  | num (value : Number)
  | str (text : String)
  | seq (items : List Value)
  | map (entries : List (Value × Value))
  | tagged (tag : Tag) (value : Value)
  deriving Repr

instance : Inhabited Value := ⟨.null⟩

/-- The entries of a mapping in their order. -/
abbrev Mapping := List (Value × Value)

mutual

/-- Equality of values, mappings being equal when they hold the same entries in any order. -/
def Value.same : Value → Value → Bool
  | .null, .null => true
  | .bool a, .bool b => a == b
  | .num a, .num b => a.same b
  | .str a, .str b => a == b
  | .seq xs, .seq ys => sameItems xs ys
  | .map es, .map fs => es.length == fs.length && sameEntries es fs
  | .tagged s v, .tagged t w => s == t && Value.same v w
  | _, _ => false

def sameItems : List Value → List Value → Bool
  | [], [] => true
  | x :: xs, y :: ys => Value.same x y && sameItems xs ys
  | _, _ => false

/-- Does the second mapping hold every entry of the first? -/
def sameEntries : List (Value × Value) → List (Value × Value) → Bool
  | [], _ => true
  | (k, v) :: es, fs =>
    (match fs.find? fun f => Value.same k f.1 with
      | some f => Value.same v f.2
      | none => false) && sameEntries es fs

end

namespace Mapping

variable {α : Type}

/-- The position of a key. -/
def indexOf? (key : Value) (entries : List (Value × α)) : Option Nat :=
  entries.findIdx? fun e => key.same e.1

def find? (key : Value) (entries : List (Value × α)) : Option α :=
  (entries.find? fun e => key.same e.1).map (·.2)

def contains (key : Value) (entries : List (Value × α)) : Bool :=
  entries.any fun e => key.same e.1

/-- A key that is present keeps its place, a new one goes to the end. -/
def insert (key : Value) (value : α) : List (Value × α) → List (Value × α)
  | [] => [(key, value)]
  | e :: es => if key.same e.1 then (e.1, value) :: es else e :: insert key value es

/-- Adds the entries whose key is not there yet. -/
def addAbsent (entries more : List (Value × α)) : List (Value × α) :=
  more.foldl (fun es e => if contains e.1 es then es else es ++ [e]) entries

/-- Removes a key, the later entries moving up. -/
def erase (key : Value) (entries : List (Value × α)) : List (Value × α) :=
  entries.eraseP fun e => key.same e.1

/-- Removes a key, the last entry taking its place. -/
def swapErase (key : Value) (entries : List (Value × α)) : List (Value × α) :=
  match indexOf? key entries, entries.getLast? with
  | some i, some last => (entries.set i last).dropLast
  | _, _ => entries

end Mapping

namespace Value

/-- Scalars other than null have a text of their own. -/
def scalarText? : Value → Option String
  | .str s => some s
  | .num n => some n.text
  | .bool b => some (if b then "true" else "false")
  | _ => none

end Value
end Questionnaire.Yaml
