import Questionnaire.Run.Page

/-!
A definition file in the course of a run. A file that cannot be read as a definition has no effect
but its own count. Otherwise its pages are numbered from a counter that goes through the run, all
records of all pages are found, and then they are written in that order.
-/
namespace Questionnaire
open Files Yaml

/-- The state of a run between two files. -/
structure Progress where
  tree : Tree
  /-- The number of pages so far, without a bound. -/
  pages : Nat := 0
  log : List Notice := []
  stats : Stats := {}

/-- The outcomes of pages, numbered from behind `before`. -/
def runPages (source : String) (before : Nat) : List Page → List PageOutcome
  | [] => []
  | p :: ps => p.run ⟨before + 1, p.name, source⟩ :: runPages source (before + 1) ps

namespace WriteResult

def isOk : Except Error String → Bool
  | .ok _ => true
  | .error _ => false

/-- What is told about the end of a write. -/
def notices (verbose : Bool) : Except Error String → List Notice
  | .ok path => if verbose then [.written path] else []
  | .error e => [.writeFailed e]

end WriteResult

/-- The counts of a file that has been read. -/
def fileStats (outcomes : List PageOutcome) (writes : List (Except Error String)) : Stats where
  files := 1
  pages := outcomes.length
  questionsSkipped := outcomes.foldr (fun o n => o.skipped + n) 0
  questionsWritten := writes.countP WriteResult.isOk
  writesFailed := writes.countP fun w => !WriteResult.isOk w

/-- Works on a file that has been read; log and counts are those of the file alone. -/
def finishFile (root : String) (verbose : Bool) (tree : Tree) (pages : Nat) (path : String) :
    Except Error Definition → Progress
  | .error e => ⟨tree, pages, [.fileSkipped e], { files := 1, filesFailed := 1 }⟩
  | .ok definition =>
    let outcomes := runPages path pages definition.pages
    let (writes, tree) := Record.attemptAll root tree (outcomes.flatMap (·.records))
    { tree
      pages := pages + definition.pages.length
      log := outcomes.flatMap (·.log) ++ writes.flatMap (WriteResult.notices verbose)
      stats := fileStats outcomes writes }

/-- Reads a file and works on it. -/
def runFile (root : String) (verbose : Bool) (tree : Tree) (pages : Nat) (path : String) :
    Progress :=
  finishFile root verbose tree pages path (Definition.load tree path)

end Questionnaire
