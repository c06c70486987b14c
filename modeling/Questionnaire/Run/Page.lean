import Questionnaire.Run.Log

/-!
A page in the course of a run. First each question is turned into a record or skipped, then the
names of the files to come are told, and then the records are left to be written.
-/
namespace Questionnaire
open Files Yaml

/-- The records of a page in the order of its questions, and the number of questions without one. -/
structure PageOutcome where
  records : List Record
  skipped : Nat
  log : List Notice

namespace Page

/-- Each question with its record, or with why there is none. -/
def results (p : Page) : List (Except Error Record) :=
  p.questions.map (Record.ofQuestion p.name)

def records (p : Page) : List Record := p.results.filterMap Except.toOption

def errors (p : Page) : List Error :=
  p.results.filterMap fun r => match r with
    | .error e => some e
    | .ok _ => none

def run (context : PageContext) (p : Page) : PageOutcome where
  records := p.records
  skipped := p.errors.length
  log := p.errors.map (.questionSkipped context) ++
    [.progress context (p.records.map (·.filename))]

end Page

/-- The attempt to write a record: its path, or why it is not written. A failure leaves the tree as
it was. -/
def Record.attempt (root : String) (t : Tree) (r : Record) : Except Error String × Tree :=
  match Record.save t root r.filename r.fields with
  | .ok (path, t) => (.ok path, t)
  | .error e => (.error e, t)

/-- Writes records one after another. -/
def Record.attemptAll (root : String) (t : Tree) : List Record → List (Except Error String) × Tree
  | [] => ([], t)
  | r :: rs =>
    let (result, t) := r.attempt root t
    let (results, t) := attemptAll root t rs
    (result :: results, t)

end Questionnaire
