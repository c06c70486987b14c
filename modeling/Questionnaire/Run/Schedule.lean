import Questionnaire.Run.File

/-!
The files of a run. A number of them are open at a time: they have been read and wait to be worked
on. The one that has been open longest is worked on, and then the next file is read. So a file that
is written in the course of a run counts as it was if it is among the first ones.

With one open file at a time the files are read and worked on one after another (`runFiles_one`).
-/
namespace Questionnaire
open Files

/-- A file that has been read. -/
structure OpenFile where
  path : String
  definition : Except Error Definition

namespace Progress

/-- Reads a file. -/
def read (p : Progress) (path : String) : OpenFile := ⟨path, Definition.load p.tree path⟩

/-- Works on an open file. -/
def finish (root : String) (verbose : Bool) (p : Progress) (f : OpenFile) : Progress :=
  let file := finishFile root verbose p.tree p.pages f.path f.definition
  ⟨file.tree, file.pages, p.log ++ file.log, p.stats.merge file.stats⟩

/-- Reads a file and works on it. -/
def next (root : String) (verbose : Bool) (p : Progress) (path : String) : Progress :=
  p.finish root verbose (p.read path)

end Progress

/-- Works on the open files and those that are still to be read. -/
def runOpen (root : String) (verbose : Bool) :
    Progress → List OpenFile → List String → Progress
  | p, opened, [] => opened.foldl (Progress.finish root verbose) p
  | p, [], path :: paths => runOpen root verbose p [p.read path] paths
  | p, f :: opened, path :: paths =>
    let p := p.finish root verbose f
    runOpen root verbose p (opened ++ [p.read path]) paths

/-- Works on files with at most `limit` of them open at a time. -/
def runFiles (root : String) (verbose : Bool) (limit : Nat) (p : Progress) (paths : List String) :
    Progress :=
  runOpen root verbose p ((paths.take limit).map p.read) (paths.drop limit)

theorem runOpen_singleton (root : String) (verbose : Bool) (p : Progress) (f : OpenFile)
    (paths : List String) :
    runOpen root verbose p [f] paths =
      paths.foldl (Progress.next root verbose) (p.finish root verbose f) := by
  induction paths generalizing p f with
  | nil => rfl
  | cons path paths ih =>
    rw [runOpen, List.nil_append, ih]
    rfl

theorem runFiles_one (root : String) (verbose : Bool) (p : Progress) (paths : List String) :
    runFiles root verbose 1 p paths = paths.foldl (Progress.next root verbose) p := by
  cases paths with
  | nil => rfl
  | cons path paths => exact runOpen_singleton root verbose p (p.read path) paths

end Questionnaire
