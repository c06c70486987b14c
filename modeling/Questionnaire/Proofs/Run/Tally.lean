import Mathlib.Algebra.GroupWithZero.Nat
import Questionnaire.Proofs.Run.Writes

/-!
What a list of files that have been read comes to, and the run over files as one pass. If no file
reads otherwise in the course of the run, the limit on open files has no influence: the run works
on the files as they were read at its start, one after another (`runFiles_eq_foldl`), and its tree
and counts are those of all records written in one go (`foldl_finish`).
-/
namespace Questionnaire
open Files Yaml

namespace OpenFile

def results (f : OpenFile) : List (Except Error Record) :=
  match f.definition with
  | .ok d => d.results
  | .error _ => []

def records (f : OpenFile) : List Record := f.results.filterMap Except.toOption

def pageCount (f : OpenFile) : Nat :=
  match f.definition with
  | .ok d => d.pages.length
  | .error _ => 0

end OpenFile

/-- The counts of files that have been read, with the outcomes of the writes of their records. -/
def tally (files : List OpenFile) (writes : List (Except Error String)) : Stats where
  files := files.length
  filesFailed := files.countP (!·.definition.isOk)
  pages := (files.map OpenFile.pageCount).sum
  questionsWritten := writes.countP WriteResult.isOk
  questionsSkipped := (files.flatMap OpenFile.results).countP (!·.isOk)
  writesFailed := writes.countP fun w => !WriteResult.isOk w

theorem tally_append (fs gs : List OpenFile) (us vs : List (Except Error String)) :
    tally (fs ++ gs) (us ++ vs) = (tally fs us).merge (tally gs vs) := by
  simp [tally, Stats.merge]

/-- Each question is written, skipped or failed at its write. -/
theorem tally_questions (root : String) (t : Tree) (fs : List OpenFile) :
    let s := tally fs (Record.attemptAll root t (fs.flatMap (·.records))).1
    s.questionsWritten + s.questionsSkipped + s.writesFailed =
      (fs.flatMap OpenFile.results).length := by
  intro s
  have written : s.questionsWritten + s.writesFailed =
      (Record.attemptAll root t (fs.flatMap (·.records))).1.length := by
    rw [← countP_isOk_add, ← WriteResult.isOk_eq]
    rfl
  have transformed : (fs.flatMap (·.records)).length =
      (fs.flatMap OpenFile.results).countP (·.isOk) := by
    rw [← filterMap_toOption_length, List.filterMap_flatMap]
    rfl
  rw [Record.length_attemptAll, transformed] at written
  have split := countP_isOk_add (fs.flatMap OpenFile.results)
  have skipped : s.questionsSkipped = (fs.flatMap OpenFile.results).countP (!·.isOk) := rfl
  omega

section Finish
variable (root : String) (verbose : Bool)

theorem finishFile_tree (t : Tree) (n : Nat) (f : OpenFile) :
    (finishFile root verbose t n f.path f.definition).tree =
      (Record.attemptAll root t f.records).2 := by
  obtain ⟨path, definition⟩ := f
  cases definition with
  | error e => rfl
  | ok d => simp only [finishFile, runPages_records]; rfl

theorem finishFile_stats (t : Tree) (n : Nat) (f : OpenFile) :
    (finishFile root verbose t n f.path f.definition).stats =
      tally [f] (Record.attemptAll root t f.records).1 := by
  obtain ⟨path, definition⟩ := f
  cases definition with
  | error e => rfl
  | ok d =>
    simp only [finishFile, fileStats, runPages_records, runPages_skipped, runPages_length]
    simp [tally, OpenFile.records, OpenFile.results, OpenFile.pageCount, Definition.records,
      Except.isOk, Except.toBool]

theorem foldl_finish (p : Progress) (fs : List OpenFile) :
    (fs.foldl (Progress.finish root verbose) p).tree =
        (Record.attemptAll root p.tree (fs.flatMap (·.records))).2 ∧
      (fs.foldl (Progress.finish root verbose) p).stats =
        p.stats.merge (tally fs (Record.attemptAll root p.tree (fs.flatMap (·.records))).1) := by
  induction fs generalizing p with
  | nil => exact ⟨rfl, rfl⟩
  | cons f fs ih =>
    obtain ⟨tree, stats⟩ := ih (p.finish root verbose f)
    have htree : (p.finish root verbose f).tree = (Record.attemptAll root p.tree f.records).2 :=
      finishFile_tree root verbose p.tree p.pages f
    have hstats : (p.finish root verbose f).stats =
        p.stats.merge (tally [f] (Record.attemptAll root p.tree f.records).1) :=
      congrArg p.stats.merge (finishFile_stats root verbose p.tree p.pages f)
    rw [htree] at tree stats
    rw [hstats, Stats.merge_assoc, ← tally_append] at stats
    rw [List.foldl_cons, List.flatMap_cons, Record.attemptAll_append]
    exact ⟨tree, stats⟩

/-- The next file is read behind the last write of the one before it. With reads that do not depend
on this moment the files can be read beforehand. -/
theorem runOpen_eq_foldl (t : Tree) (p : Progress) (opened : List OpenFile) (paths : List String)
    (kept : ∀ done, done <+: opened ++ paths.map (Progress.read { tree := t }) → ∀ path ∈ paths,
      Definition.load (done.foldl (Progress.finish root verbose) p).tree path =
        Definition.load t path) :
    runOpen root verbose p opened paths =
      (opened ++ paths.map (Progress.read { tree := t })).foldl
        (Progress.finish root verbose) p := by
  induction paths generalizing p opened with
  | nil => cases opened <;> simp [runOpen]
  | cons path paths ih =>
    cases opened with
    | nil =>
      have fresh : p.read path = Progress.read { tree := t } path :=
        congrArg (OpenFile.mk path) (kept [] (List.nil_prefix) path List.mem_cons_self)
      rw [runOpen, fresh]
      exact ih p _ fun done hd f hf => kept done hd f (List.mem_cons_of_mem _ hf)
    | cons f opened =>
      have fresh : (p.finish root verbose f).read path = Progress.read { tree := t } path :=
        congrArg (OpenFile.mk path) (kept [f] (by simp) path List.mem_cons_self)
      rw [runOpen, fresh, ih]
      · simp
      · intro done hd g hg
        refine kept (f :: done) ?_ g (List.mem_cons_of_mem _ hg)
        simpa using hd

theorem runFiles_eq_foldl (limit : Nat) (t : Tree) (paths : List String)
    (kept : ∀ done, done <+: paths → ∀ path ∈ paths,
      Definition.load ((done.map (Progress.read { tree := t })).foldl
        (Progress.finish root verbose) { tree := t }).tree path = Definition.load t path) :
    runFiles root verbose limit { tree := t } paths =
      (paths.map (Progress.read { tree := t })).foldl
        (Progress.finish root verbose) { tree := t } := by
  rw [runFiles, runOpen_eq_foldl root verbose t]
  · rw [← List.map_append, List.take_append_drop]
  · intro done hd path hp
    rw [← List.map_append, List.take_append_drop] at hd
    obtain ⟨first, hfirst, rfl⟩ := List.prefix_map_iff.mp hd
    exact kept first hfirst path (List.mem_of_mem_drop hp)

end Finish
end Questionnaire
