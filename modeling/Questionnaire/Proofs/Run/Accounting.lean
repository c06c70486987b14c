import Mathlib.Data.List.Infix
import Questionnaire.Run.Batch
import Questionnaire.Proofs.Run.Tally

/-!
Accounting of a whole run: each file that was found is counted once, each question of the files
that load is written, skipped or failed at its write, and there are no errors exactly when all
files have loaded and all their questions have been written.

The counts are told from the files as they are at the start, so no file may be overwritten by a
write of the run before it is read (`InputKept`).
-/
namespace Questionnaire
open Files Yaml

/-- The definitions of the files that load. -/
def Definition.loaded (t : Tree) (files : List String) : List Definition :=
  files.filterMap fun f => (Definition.load t f).toOption

/-- After any number of the writes of these files each of them reads as before. -/
def InputKept (root : String) (t : Tree) (files : List String) : Prop :=
  ∀ rs, rs <+: (Definition.loaded t files).flatMap Definition.records → ∀ f ∈ files,
    (Record.attemptAll root t rs).2.readText f = t.readText f

theorem Definition.load_congr {s t : Tree} {f : String} (h : s.readText f = t.readText f) :
    Definition.load s f = Definition.load t f := by
  simp only [load, h]

section Reads
variable (t : Tree) (files : List String)

theorem loaded_cons (f : String) : Definition.loaded t (f :: files) =
    (Definition.load t f).toOption.toList ++ Definition.loaded t files := by
  cases h : Definition.load t f <;> simp [Definition.loaded, h, Except.toOption]

theorem reads_results : (files.map (Progress.read { tree := t })).flatMap (·.results) =
    (Definition.loaded t files).flatMap Definition.results := by
  induction files with
  | nil => rfl
  | cons f files ih =>
    rw [List.map_cons, List.flatMap_cons, ih, loaded_cons, List.flatMap_append]
    cases h : Definition.load t f <;>
      simp [OpenFile.results, Progress.read, h, Except.toOption]

theorem reads_records : (files.map (Progress.read { tree := t })).flatMap (·.records) =
    (Definition.loaded t files).flatMap Definition.records := by
  have both := congrArg (List.filterMap Except.toOption) (reads_results t files)
  rwa [List.filterMap_flatMap, List.filterMap_flatMap] at both

theorem reads_pageCount : ((files.map (Progress.read { tree := t })).map OpenFile.pageCount).sum =
    ((Definition.loaded t files).map (·.pages.length)).sum := by
  induction files with
  | nil => rfl
  | cons f files ih =>
    rw [List.map_cons, List.map_cons, List.sum_cons, ih, loaded_cons, List.map_append,
      List.sum_append]
    cases h : Definition.load t f <;>
      simp [OpenFile.pageCount, Progress.read, h, Except.toOption]

end Reads

/-- With its input kept a run works on the files as they are at its start. -/
theorem runFiles_of_kept {root : String} {t : Tree} {files : List String}
    (kept : InputKept root t files) (verbose : Bool) (limit : Nat) :
    runFiles root verbose limit { tree := t } files =
      (files.map (Progress.read { tree := t })).foldl
        (Progress.finish root verbose) { tree := t } := by
  refine runFiles_eq_foldl root verbose limit t files fun done hdone path hp => ?_
  apply Definition.load_congr
  rw [(foldl_finish root verbose _ _).1, reads_records]
  refine kept _ ?_ path hp
  exact List.IsPrefix.flatMap (List.IsPrefix.filterMap _ hdone) _

/-- With its input kept a run is one pass of writes over the records of the files. -/
theorem runFiles_counts {root : String} {t : Tree} {files : List String}
    (kept : InputKept root t files) (verbose : Bool) (limit : Nat) :
    let writes := Record.attemptAll root t ((Definition.loaded t files).flatMap Definition.records)
    (runFiles root verbose limit { tree := t } files).tree = writes.2 ∧
      (runFiles root verbose limit { tree := t } files).stats =
        tally (files.map (Progress.read { tree := t })) writes.1 := by
  rw [runFiles_of_kept kept]
  obtain ⟨tree, stats⟩ :=
    foldl_finish root verbose { tree := t } (files.map (Progress.read { tree := t }))
  rw [reads_records] at tree stats
  exact ⟨tree, by simpa using stats⟩

theorem run_result_counts {config : Config} {t : Tree} {files : List String} {stats : Stats}
    (walked : t.walk config.inputRoot = .ok files) (returned : (run config t).result = .ok stats)
    (kept : InputKept config.outputRoot t files) :
    let writes := Record.attemptAll config.outputRoot t
      ((Definition.loaded t files).flatMap Definition.records)
    (run config t).tree = writes.2 ∧
      stats = tally (files.map (Progress.read { tree := t })) writes.1 := by
  have root : config.normalized.inputRoot = config.inputRoot := rfl
  cases files with
  | nil =>
    simp only [run, root, walked, Except.mapError, Except.ok.injEq] at returned ⊢
    exact ⟨rfl, returned.symm⟩
  | cons f files =>
    obtain ⟨tree, counts⟩ := runFiles_counts kept config.normalized.verboseLogging
      config.normalized.maxConcurrentFiles
    simp only [run, root, walked, Except.mapError] at returned ⊢
    split at returned
    · cases returned
    · rename_i inRange
      rw [if_neg inRange]
      refine ⟨tree, ?_⟩
      simp only [verdict] at returned
      split at returned
      · cases returned
      · exact (Except.ok.inj returned).symm.trans counts

theorem no_filesFailed_iff (t : Tree) (files : List String) :
    files.countP (fun f => !(Definition.load t f).isOk) = 0 ↔
      ∀ f ∈ files, ∃ d, Definition.load t f = .ok d := by
  rw [List.countP_eq_zero]
  refine forall₂_congr fun f _ => ?_
  cases Definition.load t f <;> simp [Except.isOk, Except.toBool]

theorem no_questionsSkipped_iff (t : Tree) (files : List String) :
    ((Definition.loaded t files).flatMap Definition.results).countP (!·.isOk) = 0 ↔
      ∀ f ∈ files, ∀ d, Definition.load t f = .ok d →
        ∀ p ∈ d.pages, ∀ q ∈ p.questions, ∃ r, Record.ofQuestion p.name q = .ok r := by
  have loaded : ∀ d, d ∈ Definition.loaded t files ↔
      ∃ f ∈ files, Definition.load t f = .ok d := fun d => by
    rw [Definition.loaded, List.mem_filterMap]
    refine exists_congr fun f => and_congr_right fun _ => ?_
    cases Definition.load t f <;> simp [Except.toOption]
  have fine : ∀ r : Except Error Record, ¬ (!r.isOk) = true ↔ ∃ a, r = .ok a := fun r => by
    cases r <;> simp [Except.isOk, Except.toBool]
  rw [List.countP_eq_zero]
  simp only [List.mem_flatMap, Definition.mem_results, loaded, fine]
  constructor
  · intro h f hf d hd p hp q hq
    exact h _ ⟨d, ⟨f, hf, hd⟩, p, hp, q, hq, rfl⟩
  · rintro h r ⟨d, ⟨f, hf, hd⟩, p, hp, q, hq, rfl⟩
    exact h f hf d hd p hp q hq

/-- Every file and every question is counted in one place. -/
theorem run_accounting {config : Config} {t : Tree} {files : List String} {stats : Stats}
    (walked : t.walk config.inputRoot = .ok files) (returned : (run config t).result = .ok stats)
    (kept : InputKept config.outputRoot t files) :
    let definitions := Definition.loaded t files
    let questions := definitions.flatMap Definition.results
    let writes := Record.attemptAll config.outputRoot t (definitions.flatMap Definition.records)
    (run config t).tree = writes.2 ∧
      stats.files = files.length ∧
      stats.filesFailed = files.countP (fun f => !(Definition.load t f).isOk) ∧
      stats.pages = (definitions.map (·.pages.length)).sum ∧
      stats.questionsWritten + stats.questionsSkipped + stats.writesFailed =
        (definitions.map Definition.questionCount).sum ∧
      stats.questionsSkipped = questions.countP (!·.isOk) ∧
      stats.writesFailed = writes.1.countP (!WriteResult.isOk ·) ∧
      (stats.hasErrors = false ↔
        (∀ f ∈ files, ∃ d, Definition.load t f = .ok d ∧
          ∀ p ∈ d.pages, ∀ q ∈ p.questions, ∃ r, Record.ofQuestion p.name q = .ok r) ∧
        ∀ w ∈ writes.1, WriteResult.isOk w) := by
  intro definitions questions writes
  obtain ⟨tree, rfl⟩ := run_result_counts walked returned kept
  have asked : questions.length = (definitions.map Definition.questionCount).sum := by
    simp only [questions, List.length_flatMap, Definition.length_results]
  have counted := tally_questions config.outputRoot t (files.map (Progress.read { tree := t }))
  rw [reads_records, reads_results, asked] at counted
  have failed : (files.map (Progress.read { tree := t })).countP (!·.definition.isOk) =
      files.countP fun f => !(Definition.load t f).isOk := by
    rw [List.countP_map]
    rfl
  have skipped : ((files.map (Progress.read { tree := t })).flatMap OpenFile.results).countP
      (!·.isOk) = questions.countP (!·.isOk) := by
    rw [reads_results]
  refine ⟨tree, List.length_map _, failed, reads_pageCount t files, counted, skipped, rfl, ?_⟩
  have clean : (tally (files.map (Progress.read { tree := t })) writes.1).hasErrors = false ↔
      files.countP (fun f => !(Definition.load t f).isOk) = 0 ∧
        questions.countP (!·.isOk) = 0 ∧ writes.1.countP (!WriteResult.isOk ·) = 0 := by
    simp only [Stats.hasErrors, Stats.errorCount, tally, failed, skipped, decide_eq_false_iff_not]
    omega
  rw [clean, no_filesFailed_iff, no_questionsSkipped_iff, List.countP_eq_zero]
  simp only [Bool.not_eq_true', Bool.not_eq_false]
  constructor
  · rintro ⟨loads, transforms, written⟩
    refine ⟨fun f hf => ?_, written⟩
    obtain ⟨d, hd⟩ := loads f hf
    exact ⟨d, hd, transforms f hf d hd⟩
  · rintro ⟨all, written⟩
    refine ⟨fun f hf => ?_, fun f hf d hd => ?_, written⟩
    · obtain ⟨d, hd, _⟩ := all f hf
      exact ⟨d, hd⟩
    · obtain ⟨d', hd', transforms⟩ := all f hf
      obtain rfl := Except.ok.inj (hd.symm.trans hd')
      exact transforms

/-- A file with a question without a key, one that is no YAML, and one with a name that is used
twice and a name that a directory has. -/
private def mixedTree : Tree where
  root := .dir [("work", .dir
    [("in", .dir
      [("a.yml", .file "P:\n  Q1: \x7bkey: 17, hint: h\x7d\n  Q2: \x7bhint: none\x7d\n".toUTF8),
        ("sub", .dir [("b.yml", .file "P: \x7bunclosed\n".toUTF8)]),
        ("c.yml", .link "sub/d"),
        ("e.yml", .file "R:\n  Q3: \x7bkey: taken\x7d\nS:\n  Q4: \x7bkey: '17'\x7d\n".toUTF8)]),
      ("out", .dir [("taken.yml", .dir [])])])]
  cwd := ["work"]

theorem run_accounting_mixed :
    let config : Config := { inputRoot := "in", outputRoot := "out" }
    let files := ["in/a.yml", "in/sub/b.yml", "in/e.yml"]
    mixedTree.walk config.inputRoot = .ok files ∧
      (run config mixedTree).result = .ok ⟨3, 1, 3, 2, 1, 1⟩ ∧
      InputKept config.outputRoot mixedTree files ∧
      2 + 1 + 1 = ((Definition.loaded mixedTree files).map Definition.questionCount).sum := by
  intro config files
  have walked : mixedTree.walk config.inputRoot = .ok files := by decide +kernel
  have returned : (run config mixedTree).result = .ok ⟨3, 1, 3, 2, 1, 1⟩ := by
    have value : (run config mixedTree).result.toOption = some ⟨3, 1, 3, 2, 1, 1⟩ := by
      decide +kernel
    exact eq_ok_of_toOption value
  have kept : InputKept config.outputRoot mixedTree files := by
    have all : ∀ rs ∈ ((Definition.loaded mixedTree files).flatMap Definition.records).inits,
        ∀ f ∈ files, (Record.attemptAll config.outputRoot mixedTree rs).2.readText f =
          mixedTree.readText f := by decide +kernel
    exact fun rs hrs => all rs ((List.mem_inits _ _).mpr hrs)
  exact ⟨walked, returned, kept, (run_accounting walked returned kept).2.2.2.2.1⟩

end Questionnaire
