import Questionnaire.Proofs.Except
import Questionnaire.Run.Schedule

/-!
The records of a definition and their writes. A page sorts its questions into records and errors;
the writes of a file are those of its records one after another, so writing two lists of records
is writing the one and then the other.
-/
namespace Questionnaire
open Files Yaml

namespace Definition

/-- Each question of each page with its record, or with why there is none. -/
def results (d : Definition) : List (Except Error Record) := d.pages.flatMap Page.results

/-- The records in the order in which they are written. -/
def records (d : Definition) : List Record := d.results.filterMap Except.toOption

theorem length_results (d : Definition) : d.results.length = d.questionCount := by
  simp [results, questionCount, Page.results, List.length_flatMap]

theorem mem_results {d : Definition} {r : Except Error Record} :
    r ∈ d.results ↔ ∃ p ∈ d.pages, ∃ q ∈ p.questions, Record.ofQuestion p.name q = r := by
  simp [results, Page.results]

end Definition

theorem WriteResult.isOk_eq : WriteResult.isOk = Except.isOk := by
  funext w
  cases w <;> rfl

theorem Page.length_errors (p : Page) : p.errors.length = p.results.countP (!·.isOk) := by
  rw [Page.errors]
  induction p.results with
  | nil => rfl
  | cons r rs ih => cases r <;> simp [Except.isOk, Except.toBool, ih]

section Pages
variable (source : String) (before : Nat) (ps : List Page)

theorem runPages_records :
    (runPages source before ps).flatMap (·.records) = Definition.records ⟨ps⟩ := by
  induction ps generalizing before with
  | nil => rfl
  | cons p ps ih =>
    simp only [runPages, List.flatMap_cons, ih, Definition.records, Definition.results,
      List.filterMap_append]
    rfl

theorem runPages_skipped :
    (runPages source before ps).foldr (fun o n => o.skipped + n) 0 =
      (Definition.results ⟨ps⟩).countP (!·.isOk) := by
  induction ps generalizing before with
  | nil => rfl
  | cons p ps ih =>
    simp only [runPages, List.foldr_cons, ih, Definition.results, List.flatMap_cons,
      List.countP_append, Page.run, Page.length_errors]

theorem runPages_length : (runPages source before ps).length = ps.length := by
  induction ps generalizing before with
  | nil => rfl
  | cons p ps ih => simp [runPages, ih]

end Pages

namespace Record

section One
variable {t : Tree} {root : String} {r : Record}

/-- A record without a text is refused before its path is looked at. -/
theorem attempt_unwritten {e : Write.WriteError} (failed : Mapping.write r.fields = .error e) :
    r.attempt root t = (.error (.serialize r.filename e), t) := by
  have unsaved : save t root r.filename r.fields = .error (.serialize r.filename e) := by
    simp only [save, failed]
    rfl
  rw [attempt, unsaved]

/-- With a text it is up to the file system. -/
theorem attempt_written {text : String} (written : Mapping.write r.fields = .ok text) :
    r.attempt root t = match t.writeText (joinPath root r.filename) text with
      | .error e => (.error (.write (joinPath root r.filename) e), t)
      | .ok after => (.ok (joinPath root r.filename), after) := by
  have saved : save t root r.filename r.fields =
      ((t.writeText (joinPath root r.filename) text).mapError
        (.write (joinPath root r.filename))).bind fun after =>
          .ok (joinPath root r.filename, after) := by
    simp only [save, written]
    rfl
  rw [attempt, saved]
  cases t.writeText (joinPath root r.filename) text <;> rfl

end One

theorem attemptAll_append (root : String) (t : Tree) (rs ss : List Record) :
    attemptAll root t (rs ++ ss) =
      ((attemptAll root t rs).1 ++ (attemptAll root (attemptAll root t rs).2 ss).1,
        (attemptAll root (attemptAll root t rs).2 ss).2) := by
  induction rs generalizing t with
  | nil => rfl
  | cons r rs ih => simp [attemptAll, ih]

theorem length_attemptAll (root : String) (t : Tree) (rs : List Record) :
    (attemptAll root t rs).1.length = rs.length := by
  induction rs generalizing t with
  | nil => rfl
  | cons r rs ih => simp [attemptAll, ih]

end Record
end Questionnaire
