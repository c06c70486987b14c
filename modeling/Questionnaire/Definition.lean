import Questionnaire.Error

/-!
A definition file: pages of questions. Only the shape that leads to the questions is checked; what a
question says about itself is any value.
-/
namespace Questionnaire
open Files Yaml

structure Question where
  text : String
  metadata : Value

structure Page where
  name : String
  questions : List Question

structure Definition where
  pages : List Page

namespace Definition

def questionCount (d : Definition) : Nat := (d.pages.flatMap (·.questions)).length

/-- The text of a key that names a page or a question. -/
def keyText? : Value → Option String
  | .null => some "null"
  | v => v.scalarText?

def questionsOf (page : String) : Mapping → Except DefinitionError (List Question)
  | [] => .ok []
  | (k, v) :: es =>
    match keyText? k with
    | none => .error (.badQuestionText page k)
    | some text => do return ⟨text, v⟩ :: (← questionsOf page es)

def pagesOf : Mapping → Except DefinitionError (List Page)
  | [] => .ok []
  | (k, v) :: es =>
    match keyText? k, v with
    | none, _ => .error (.badPageName k)
    | some name, .map questions => do
      let page : Page := ⟨name, ← questionsOf name questions⟩
      return page :: (← pagesOf es)
    | some name, v => .error (.badPage name v)

def ofValue : Value → Except DefinitionError Definition
  | .map entries => do return ⟨← pagesOf entries⟩
  | v => .error (.noMapping v)

/-- The definition that a text holds, its merge keys expanded. -/
def ofText (text : String) : Except DefinitionError Definition := do
  let v ← (Value.ofString text).mapError .unreadable
  let v ← v.expand.mapError .unmergeable
  ofValue v

/-- The definition in a file. -/
def load (t : Tree) (path : String) : Except Error Definition := do
  let text ← (t.readText path).mapError (.read path)
  (ofText text).mapError (.parse path)

end Definition
end Questionnaire
