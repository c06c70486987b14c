import Questionnaire.Proofs.Run.Accounting
import Questionnaire.Proofs.Run.Input
import Questionnaire.Proofs.Run.Turns
import Questionnaire.Run.Command

/-!
What the switches of a run are for. They say what is told, how many files may be open and whether
errors make the run fail; the work itself depends on the two directories and on the order of the
turns alone (`switches_keep_work`). A run fails exactly if its input cannot be walked, and then it
has done nothing, or if it is strict and has counted an error, and then all its work is done.
-/
namespace Questionnaire
open Files RunState

/-- A run with these settings whose files take these turns, and its counts; there are none if its
input cannot be walked. What it tells is left open. -/
inductive RunsBy (c : Config) (t : Tree) : List Turn → Option Stats → RunOutcome → Prop
  | noInput {e : IoError} (log : List Notice) :
      t.walk c.inputRoot = .error e →
      RunsBy c t [] none ⟨t, log, .error (.noInput c.inputRoot (.traversal c.inputRoot e))⟩
  | done {files : List String} {xs : List Turn} {p : Progress} (log : List Notice) :
      t.walk c.inputRoot = .ok files →
      (Underway.start t files).turns c.normalized xs = some ⟨p, [], []⟩ →
      RunsBy c t xs (some p.stats) ⟨p.tree, log, verdict c p.stats⟩

/-- When a run fails, and how much of its work is done. -/
structure ExactEnd (c : Config) (t : Tree) (stats : Option Stats) (o : RunOutcome) : Prop where
  fails_iff : (∃ e, o.result = .error e) ↔ (∃ e, t.walk c.inputRoot = .error e) ∨
    c.strictExit = true ∧ ∃ s, stats = some s ∧ 0 < s.errorCount
  untouched : ∀ e, t.walk c.inputRoot = .error e → o.tree = t
  worked : ∀ files, t.walk c.inputRoot = .ok files →
    ∃ s, Interleaves c.outputRoot t files s ∧ s.tree = o.tree ∧ stats = some s.stats

theorem verdict_eq_error {c : Config} {s : Stats} :
    (∃ e, verdict c s = .error e) ↔ c.strictExit = true ∧ 0 < s.errorCount := by
  have errors : s.hasErrors = true ↔ 0 < s.errorCount := decide_eq_true_iff
  rw [← errors, ← Bool.and_eq_true, verdict]
  cases c.strictExit && s.hasErrors <;> simp

namespace RunsBy
variable {a b c : Config} {t : Tree} {xs : List Turn} {m n : Option Stats} {o q : RunOutcome}

theorem exactEnd (runs : RunsBy c t xs m o) : ExactEnd c t m o := by
  cases runs with
  | noInput _ fails =>
    constructor
    · exact ⟨fun _ => .inl ⟨_, fails⟩, fun _ => ⟨_, rfl⟩⟩
    · intro _ _
      rfl
    · intro files walked
      cases fails.symm.trans walked
  | done _ walked taken =>
    constructor
    · rw [verdict_eq_error]
      constructor
      · rintro ⟨strict, errors⟩
        exact .inr ⟨strict, _, rfl, errors⟩
      · rintro (⟨e, fails⟩ | ⟨strict, s, same, errors⟩)
        · cases walked.symm.trans fails
        · obtain rfl := Option.some.inj same
          exact ⟨strict, errors⟩
    · intro e fails
      cases walked.symm.trans fails
    · intro files found
      obtain rfl := Except.ok.inj (walked.symm.trans found)
      obtain ⟨s, interleaves, tree, _, stats⟩ := Underway.interleaves_of_turns taken
      exact ⟨s, interleaves, tree, congrArg some stats.symm⟩

/-- The same turns come to the same work. -/
theorem same_work (input : a.inputRoot = b.inputRoot) (output : a.outputRoot = b.outputRoot)
    (runs : RunsBy a t xs m o) (other : RunsBy b t xs n q) : o.tree = q.tree ∧ m = n := by
  cases runs with
  | noInput _ fails =>
    rw [input] at fails
    cases other with
    | noInput _ _ => exact ⟨rfl, rfl⟩
    | done _ walked _ => cases fails.symm.trans walked
  | done _ walked taken =>
    rw [input] at walked
    cases other with
    | noInput _ fails => cases fails.symm.trans walked
    | done _ found rest =>
      obtain rfl := Except.ok.inj (walked.symm.trans found)
      have kept : a.normalized.outputRoot = b.normalized.outputRoot := output
      have alike := (Underway.Alike.refl _).turns kept taken rest
      exact ⟨alike.tree, congrArg some alike.stats⟩

/-- The turns of a run are also those of one with a larger limit. -/
theorem exists_of_le (input : a.inputRoot = b.inputRoot) (output : a.outputRoot = b.outputRoot)
    (le : a.maxConcurrentFiles ≤ b.maxConcurrentFiles) (runs : RunsBy a t xs m o) :
    ∃ q, RunsBy b t xs m q ∧ q.tree = o.tree := by
  cases runs with
  | noInput _ fails =>
    rw [input] at fails
    exact ⟨_, .noInput [] fails, rfl⟩
  | done _ walked taken =>
    rw [input] at walked
    have limits : a.normalized.maxConcurrentFiles ≤ b.normalized.maxConcurrentFiles := by
      simp only [Config.normalized]
      omega
    have kept : a.normalized.outputRoot = b.normalized.outputRoot := output
    obtain ⟨⟨p, opened, waiting⟩, rest, tree, _, stats, rfl, rfl⟩ :=
      (Underway.Alike.refl _).exists_turns kept limits taken
    have runs := RunsBy.done [] walked rest
    rw [← stats] at runs
    exact ⟨_, runs, tree.symm⟩

theorem ne_crash (runs : RunsBy c t xs m o) : o.result ≠ .error .crash := by
  cases runs with
  | noInput _ _ =>
    intro h
    cases h
  | done _ _ _ =>
    simp only [verdict]
    split <;>
      · intro h
        cases h

end RunsBy

/-- A run takes the turns of its limit. -/
theorem runsBy_of_walk_ok {c : Config} {t : Tree} {files : List String}
    (inRange : c.maxConcurrentFiles ≤ maxPermits) (walked : t.walk c.inputRoot = .ok files) :
    let p := runFiles c.outputRoot c.verboseLogging c.normalized.maxConcurrentFiles
      { tree := t } files
    (run c t).tree = p.tree ∧ ∃ xs, RunsBy c t xs (some p.stats) (run c t) := by
  intro p
  obtain ⟨log, result⟩ := run_of_walk_ok inRange walked
  rw [result]
  exact ⟨rfl, _, .done log walked (turns_inOrder c.normalized t files c.one_le_normalized)⟩

theorem exists_runsBy {c : Config} (t : Tree) (inRange : c.maxConcurrentFiles ≤ maxPermits) :
    ∃ xs m, RunsBy c t xs m (run c t) := by
  cases walked : t.walk c.inputRoot with
  | error e =>
    obtain ⟨log, result⟩ := run_of_walk_error walked
    rw [result]
    exact ⟨[], none, .noInput log walked⟩
  | ok files =>
    obtain ⟨_, xs, runs⟩ := runsBy_of_walk_ok inRange walked
    exact ⟨xs, _, runs⟩

theorem command_tree (lookup : String → Option String) (t : Tree) :
    (command lookup t).tree = (run (.ofVariables lookup) t).tree := by
  rw [command]
  split <;> rfl

theorem command_exitCode {lookup : String → Option String} {t : Tree}
    (fine : (run (.ofVariables lookup) t).result ≠ .error .crash) :
    (command lookup t).exitCode = if (run (.ofVariables lookup) t).result.isOk then 0 else 1 := by
  rw [command]
  cases result : (run (.ofVariables lookup) t).result with
  | ok s => rfl
  | error e =>
    cases e with
    | crash => exact absurd result fine
    | noInput root e => rfl
    | errors n => rfl

/-- If no input is overwritten, not even the order of the turns has an influence. -/
theorem run_of_kept {a b : Config} {t : Tree} {files : List String}
    (input : a.inputRoot = b.inputRoot) (output : a.outputRoot = b.outputRoot)
    (inRangeA : a.maxConcurrentFiles ≤ maxPermits) (inRangeB : b.maxConcurrentFiles ≤ maxPermits)
    (walked : t.walk a.inputRoot = .ok files) (kept : InputKept a.outputRoot t files) :
    ∃ xs ys s, RunsBy a t xs (some s) (run a t) ∧ RunsBy b t ys (some s) (run b t) ∧
      (run a t).tree = (run b t).tree := by
  have found : t.walk b.inputRoot = .ok files := input ▸ walked
  obtain ⟨treeA, xs, runA⟩ := runsBy_of_walk_ok inRangeA walked
  obtain ⟨treeB, ys, runB⟩ := runsBy_of_walk_ok inRangeB found
  obtain ⟨workA, countA⟩ := runFiles_counts kept a.verboseLogging a.normalized.maxConcurrentFiles
  obtain ⟨workB, countB⟩ := runFiles_counts kept b.verboseLogging b.normalized.maxConcurrentFiles
  rw [← output] at treeB runB
  rw [countA] at runA
  rw [countB] at runB
  exact ⟨xs, ys, _, runA, runB, treeA.trans (workA.trans (treeB.trans workB).symm)⟩

/-- The switches of a run change what it tells and whether it fails, not its work. -/
theorem switches_keep_work {a b : Config} (input : a.inputRoot = b.inputRoot)
    (output : a.outputRoot = b.outputRoot) (inRangeA : a.maxConcurrentFiles ≤ maxPermits)
    (inRangeB : b.maxConcurrentFiles ≤ maxPermits) (t : Tree) :
    (∀ xs m n o q, RunsBy a t xs m o → RunsBy b t xs n q → o.tree = q.tree ∧ m = n) ∧
    (a.maxConcurrentFiles ≤ b.maxConcurrentFiles →
      ∀ xs m o, RunsBy a t xs m o → ∃ q, RunsBy b t xs m q ∧ q.tree = o.tree) ∧
    (∀ files, t.walk a.inputRoot = .ok files → InputKept a.outputRoot t files →
      ∃ xs ys s, RunsBy a t xs (some s) (run a t) ∧ RunsBy b t ys (some s) (run b t) ∧
        (run a t).tree = (run b t).tree) ∧
    (∃ xs m, RunsBy a t xs m (run a t)) ∧
    (∀ xs m o, RunsBy a t xs m o → ExactEnd a t m o) ∧
    ∀ lookup, Config.ofVariables lookup = a → (command lookup t).tree = (run a t).tree ∧
      ((command lookup t).exitCode = 1 ↔ ∃ e, (run a t).result = .error e) ∧
      ((command lookup t).exitCode = 0 ↔ ∃ s, (run a t).result = .ok s) := by
  have runs := exists_runsBy t inRangeA
  refine ⟨fun _ _ _ _ _ => RunsBy.same_work input output, fun le _ _ _ =>
    RunsBy.exists_of_le input output le, fun _ => run_of_kept input output inRangeA inRangeB,
    runs, fun _ _ _ => RunsBy.exactEnd, ?_⟩
  rintro lookup rfl
  obtain ⟨_, _, run⟩ := runs
  have code := command_exitCode run.ne_crash
  refine ⟨command_tree lookup t, ?_, ?_⟩
  · rw [code]
    cases (Questionnaire.run (.ofVariables lookup) t).result <;> simp [Except.isOk, Except.toBool]
  · rw [code]
    cases (Questionnaire.run (.ofVariables lookup) t).result <;> simp [Except.isOk, Except.toBool]

/-- The first file leaves a record in the place of the second one. -/
private def overlappingTree : Tree where
  root := .dir [("work", .dir [("data", .dir
    [("a.yml", .file "P:\n  A: \x7bkey: b\x7d\n  B: \x7b\x7d\n".toUTF8),
      ("b.yml", .file "Q:\n  C: \x7bkey: c\x7d\n".toUTF8)])])]
  cwd := ["work"]

private def strictVariables (name : String) : Option String :=
  List.lookup name [("INPUT_ROOT", "data"), ("OUTPUT_ROOT", "data"), ("MAX_CONCURRENT_FILES", "1"),
    ("VERBOSE_LOGGING", "true"), ("STRICT_EXIT", "true"), ("RUST_LOG", "off")]

/-- With one file at a time the second one is read when it has been overwritten. With more this can
happen too, but if both are read at first, it does not. -/
theorem switches_keep_work_overlapping :
    let strict : Config := ⟨"data", "data", 1, true, true⟩
    let lenient : Config := ⟨"data", "data", 100, false, false⟩
    let counts : Stats := ⟨2, 1, 1, 1, 1, 0⟩
    ∃ xs q, RunsBy strict overlappingTree xs (some counts) (run strict overlappingTree) ∧
      RunsBy lenient overlappingTree xs (some counts) q ∧
      q.tree = (run strict overlappingTree).tree ∧
      (command strictVariables overlappingTree).exitCode = 1 ∧
      (run lenient overlappingTree).result.toOption = some ⟨2, 0, 2, 2, 1, 0⟩ := by
  intro strict lenient counts
  have inRange : strict.maxConcurrentFiles ≤ maxPermits := by decide
  have walked : overlappingTree.walk strict.inputRoot = .ok ["data/a.yml", "data/b.yml"] := by
    decide +kernel
  have counted : (runFiles "data" true 1 { tree := overlappingTree }
    ["data/a.yml", "data/b.yml"]).stats = counts := by decide +kernel
  obtain ⟨_, xs, runs⟩ := runsBy_of_walk_ok inRange walked
  rw [show strict.normalized.maxConcurrentFiles = 1 from rfl, counted] at runs
  obtain ⟨_, larger, _, _, exact, onCommand⟩ := switches_keep_work
    (a := strict) (b := lenient) rfl rfl inRange (by decide) overlappingTree
  obtain ⟨q, others, tree⟩ := larger (by decide) xs _ _ runs
  have settings : Config.ofVariables strictVariables = strict := by decide +kernel
  have failed : ∃ e, (run strict overlappingTree).result = .error e :=
    (exact xs _ _ runs).fails_iff.mpr (.inr ⟨rfl, counts, rfl, by decide⟩)
  exact ⟨xs, q, runs, others, tree, (onCommand _ settings).2.1.mpr failed, by decide +kernel⟩

end Questionnaire
