import Questionnaire.Definition

/-!
The record of a question: its metadata without the key, which names the file, and with the text of
the question. Each record goes to a file of its own.
-/
namespace Questionnaire
open Files Yaml

/-- A record and the name of its file. -/
structure Record where
  filename : String
  fields : Mapping

namespace Record

def keyField : Value := .str "key"
def questionField : Value := .str "question"
def fileExtension : String := ".yml"

/-- A text that can stand in front of the extension as the name of a file in a directory. -/
def isStem (stem : String) : Bool :=
  !(stem.isEmpty || stem == "." || stem == ".." ||
    stem.toList.any fun c => c == '/' || c == '\\')

/-- The name that the value of a key field gives a file, without extension. -/
def stemOf (key : Value) : Except KeyProblem String :=
  match key.scalarText? with
  | none => .error .notScalar
  | some stem =>
    if stem.isEmpty then .error .empty
    else if isStem stem then .ok stem
    else .error (.notFileName stem)

/-- The record of a question on a page. -/
def ofQuestion (page : String) (q : Question) : Except Error Record :=
  match q.metadata with
  | .map fields =>
    match Mapping.find? keyField fields with
    | none => .error (.missingKey page q.text)
    | some key => do
      let stem ← (stemOf key).mapError (.invalidKey page q.text)
      let fields := Mapping.insert questionField (.str q.text) (Mapping.erase keyField fields)
      return ⟨stem ++ fileExtension, fields⟩
  | _ => .error (.invalidRecord page q.text)

/-- The names of the fields, as far as they are strings. A tag on a name does not count. -/
def fieldNames (fields : Mapping) : List String :=
  fields.filterMap fun e => name? e.1
where
  name? : Value → Option String
    | .str s => some s
    | .tagged _ v => name? v
    | _ => none

/-- Writes fields to a file below a root, and tells its path. -/
def save (t : Tree) (root filename : String) (fields : Mapping) : Except Error (String × Tree) := do
  let text ← (Mapping.write fields).mapError (.serialize filename)
  let path := joinPath root filename
  let t ← (t.writeText path text).mapError (.write path)
  return (path, t)

end Record
end Questionnaire
