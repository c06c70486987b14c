import Questionnaire.Proofs.Run.Switches

/-!
How a run ends. Before any file is read a permit is made for each file that may be open at a time
(`Config.permits?`). There is always at least one, but a limit above `maxPermits` is not brought
down, and the permits cannot be made: if there is a file to work on, the run breaks off without a
report. In all other cases it ends with its counts or with an error that it reports
(`run_reported_iff`).
-/
namespace Questionnaire
open Files

/-- The permits of a run, if so many can be made. -/
def Config.permits? (c : Config) : Option Nat :=
  if c.normalized.maxConcurrentFiles ≤ maxPermits then some c.normalized.maxConcurrentFiles
  else none

/-- The end of a run that has worked on its files. -/
def RunOutcome.worked (c : Config) (t : Tree) (files : List String) (p : Progress) : RunOutcome :=
  let found := [.filesFound files.length, .concurrency c.normalized.maxConcurrentFiles]
  ⟨p.tree, Notice.startup c.normalized ++ outputWarning t c.outputRoot ++ [.scanning] ++ found ++
    p.log ++ Notice.summary p.stats, verdict c p.stats⟩

/-- The counts of a run, or an error that it reports. -/
inductive Reported (c : Config) : Except RunError Stats → Prop
  | counts (s : Stats) : Reported c (.ok s)
  | noInput (e : IoError) : Reported c (.error (.noInput c.inputRoot (.traversal c.inputRoot e)))
  | errors {n : Nat} : c.strictExit → 0 < n → Reported c (.error (.errors n))

section Permits
variable {c : Config} {k : Nat}

theorem permits?_eq_some : c.permits? = some k ↔
    k = c.normalized.maxConcurrentFiles ∧ k ≤ maxPermits := by
  rw [Config.permits?]
  constructor
  · intro h
    split at h
    · rename_i within
      cases h
      exact ⟨rfl, within⟩
    · cases h
  · rintro ⟨rfl, within⟩
    exact if_pos within

theorem permits?_eq_none : c.permits? = none ↔ maxPermits < c.maxConcurrentFiles := by
  rw [Config.permits?, ite_eq_right_iff]
  simp only [reduceCtorEq, imp_false, Config.normalized, maxPermits]
  omega

theorem one_le_permits (made : c.permits? = some k) : 1 ≤ k := by
  obtain ⟨rfl, _⟩ := permits?_eq_some.mp made
  exact c.one_le_normalized

/-- From variables there are too many permits only if that many are asked for. -/
theorem permits?_ofVariables (lookup : String → Option String) :
    (Config.ofVariables lookup).permits? = none ↔ ∃ text n,
      lookup "MAX_CONCURRENT_FILES" = some text ∧ Config.count? text = some n ∧ maxPermits < n := by
  rw [permits?_eq_none]
  simp only [Config.ofVariables, Config.normalized]
  cases asked : (lookup "MAX_CONCURRENT_FILES").bind Config.count? with
  | none =>
    constructor
    · intro h
      exact absurd h (by decide)
    · rintro ⟨text, n, given, counted, _⟩
      rw [given, Option.bind_some, counted] at asked
      cases asked
  | some n =>
    obtain ⟨text, given, counted⟩ := Option.bind_eq_some_iff.mp asked
    constructor
    · intro h
      simp only [Option.getD_some, maxPermits] at h
      refine ⟨text, n, given, counted, ?_⟩
      simp only [maxPermits]
      omega
    · rintro ⟨text', n', given', counted', large⟩
      rw [given', Option.bind_some, counted'] at asked
      obtain rfl := Option.some.inj asked
      simp only [Option.getD_some]
      omega

end Permits

theorem run_worked {c : Config} {t : Tree} {files : List String} {k : Nat} (work : files ≠ [])
    (walked : t.walk c.inputRoot = .ok files) (made : c.permits? = some k) :
    run c t = .worked c t files
      (runFiles c.outputRoot c.verboseLogging k { tree := t } files) := by
  obtain ⟨rfl, within⟩ := permits?_eq_some.mp made
  have found : t.walk c.normalized.inputRoot = .ok files := walked
  cases files with
  | nil => exact absurd rfl work
  | cons f files =>
    simp only [run, found, Except.mapError, if_neg (Nat.not_lt.mpr within)]
    rfl

/-- The ways a run can go. -/
theorem run_cases (c : Config) (t : Tree) :
    (∃ e log, t.walk c.inputRoot = .error e ∧
      run c t = ⟨t, log, .error (.noInput c.inputRoot (.traversal c.inputRoot e))⟩) ∨
    (∃ log, t.walk c.inputRoot = .ok [] ∧ run c t = ⟨t, log, .ok {}⟩) ∨
    ∃ files, files ≠ [] ∧ t.walk c.inputRoot = .ok files ∧
      ((c.permits? = none ∧ ∃ log, run c t = ⟨t, log, .error .crash⟩) ∨
        ∃ k, c.permits? = some k ∧ run c t = .worked c t files
          (runFiles c.outputRoot c.verboseLogging k { tree := t } files)) := by
  have input : c.normalized.inputRoot = c.inputRoot := rfl
  cases walked : t.walk c.inputRoot with
  | error e =>
    obtain ⟨log, ended⟩ := run_of_walk_error walked
    exact .inl ⟨e, log, rfl, ended⟩
  | ok files =>
    by_cases work : files = []
    · subst work
      simp only [run, input, walked]
      exact .inr (.inl ⟨_, trivial, rfl⟩)
    · refine .inr (.inr ⟨files, work, rfl, ?_⟩)
      cases made : c.permits? with
      | some k => exact .inr ⟨k, rfl, run_worked work walked made⟩
      | none =>
        have large : maxPermits < c.normalized.maxConcurrentFiles := by
          have asked := permits?_eq_none.mp made
          simp only [Config.normalized]
          omega
        cases files with
        | nil => exact absurd rfl work
        | cons f files =>
          simp only [run, input, walked, Except.mapError, if_pos large]
          exact .inl ⟨trivial, _, rfl⟩

theorem reported_verdict (c : Config) (s : Stats) : Reported c (verdict c s) := by
  rw [verdict]
  split
  · rename_i failed
    obtain ⟨strict, errors⟩ := Bool.and_eq_true _ _ ▸ failed
    exact .errors strict (decide_eq_true_iff.mp errors)
  · exact .counts s

theorem not_reported_crash (c : Config) : ¬ Reported c (.error .crash) := by
  intro reported
  cases reported

/-- There is a report, or there was something to work on and the permits could not be made. -/
theorem run_report (c : Config) (t : Tree) :
    (Reported c (run c t).result ∧
        (c.permits?.isSome ∨ ∀ files, t.walk c.inputRoot = .ok files → files = [])) ∨
      ((run c t).result = .error .crash ∧ (run c t).tree = t ∧ c.permits? = none ∧
        ∃ files, files ≠ [] ∧ t.walk c.inputRoot = .ok files) := by
  rcases run_cases c t with ⟨e, log, fails, ended⟩ | ⟨log, walked, ended⟩ |
    ⟨files, work, walked, ⟨none, log, ended⟩ | ⟨k, made, ended⟩⟩
  · left
    rw [ended]
    refine ⟨.noInput e, .inr fun files walked => ?_⟩
    cases fails.symm.trans walked
  · left
    rw [ended]
    refine ⟨.counts {}, .inr fun files found => ?_⟩
    exact Except.ok.inj (found.symm.trans walked)
  · right
    rw [ended]
    exact ⟨rfl, rfl, none, files, work, walked⟩
  · left
    rw [ended, made]
    exact ⟨reported_verdict c _, .inl rfl⟩

theorem exitCode_crash {lookup : String → Option String} {t : Tree}
    (broken : (run (.ofVariables lookup) t).result = .error .crash) :
    (command lookup t).exitCode = 101 := by
  simp only [command, broken]

/-- A run ends with a report exactly if its permits can be made or there is nothing to work on.
Otherwise nothing is done. -/
theorem run_reported_iff (c : Config) (t : Tree) :
    (Reported c (run c t).result ↔
      c.permits?.isSome ∨ ∀ files, t.walk c.inputRoot = .ok files → files = []) ∧
    (¬ Reported c (run c t).result →
      (run c t).result = .error .crash ∧ (run c t).tree = t) ∧
    (∀ k, c.permits? = some k → 1 ≤ k ∧ k ≤ maxPermits ∧ k = max c.maxConcurrentFiles 1) ∧
    ∀ lookup, let settings := Config.ofVariables lookup
      (settings.permits? = none ↔ ∃ text n, lookup "MAX_CONCURRENT_FILES" = some text ∧
        Config.count? text = some n ∧ maxPermits < n) ∧
      (Reported settings (run settings t).result → (command lookup t).exitCode ≤ 1) ∧
      (¬ Reported settings (run settings t).result → (command lookup t).exitCode = 101) := by
  refine ⟨?_, ?_, ?_, ?_⟩
  · rcases run_report c t with ⟨reported, fine⟩ | ⟨broken, _, none, files, work, walked⟩
    · exact iff_of_true reported fine
    · rw [broken, none]
      refine iff_of_false (not_reported_crash c) ?_
      rintro (made | empty)
      · cases made
      · exact work (empty files walked)
  · intro unreported
    rcases run_report c t with ⟨reported, _⟩ | ⟨broken, kept, _⟩
    · exact absurd reported unreported
    · exact ⟨broken, kept⟩
  · intro k made
    obtain ⟨same, within⟩ := permits?_eq_some.mp made
    exact ⟨one_le_permits made, within, same⟩
  · intro lookup settings
    refine ⟨permits?_ofVariables lookup, fun reported => ?_, fun unreported => ?_⟩
    · have fine : (run settings t).result ≠ .error .crash := by
        intro broken
        rw [broken] at reported
        exact not_reported_crash settings reported
      rw [command_exitCode fine]
      split <;> omega
    · rcases run_report settings t with ⟨reported, _⟩ | ⟨broken, _⟩
      · exact absurd reported unreported
      · exact exitCode_crash broken

/-- One file with one question, and a directory for its record. -/
private def smallTree : Tree where
  root := .dir [("work", .dir
    [("service", .dir [("a.yml", .file "P:\n  A: \x7bkey: a\x7d\n".toUTF8)]), ("g6", .dir [])])]
  cwd := ["work"]

private def manyVariables (name : String) : Option String :=
  List.lookup name [("MAX_CONCURRENT_FILES", "2305843009213693952")]

/-- The largest number of permits is enough for a run, as any smaller one. -/
theorem run_reported_iff_largest :
    let c : Config := { maxConcurrentFiles := 2305843009213693951 }
    Reported c (run c smallTree).result ∧ c.permits? = some 2305843009213693951 := by
  intro c
  have made : c.permits? = some 2305843009213693951 := by decide +kernel
  have fine : c.permits?.isSome := by rw [made]; rfl
  exact ⟨(run_reported_iff c smallTree).1.mpr (.inl fine), made⟩

/-- One permit more cannot be made, and nothing in the settings keeps it from being asked for. -/
theorem permits_tooMany :
    let c : Config := { maxConcurrentFiles := 2305843009213693952 }
    Config.ofVariables manyVariables = c ∧ c.normalized = c ∧ c.permits? = none ∧
      (run c smallTree).result = .error .crash ∧
      (command manyVariables smallTree).exitCode = 101 := by
  intro c
  have settings : Config.ofVariables manyVariables = c := by decide +kernel
  have none : c.permits? = none := by decide +kernel
  have walked : smallTree.walk c.inputRoot = .ok ["service/a.yml"] := by decide +kernel
  have broken : (run c smallTree).result = .error .crash := by
    rcases run_report c smallTree with ⟨_, made | empty⟩ | ⟨broken, _⟩
    · rw [none] at made
      cases made
    · cases empty _ walked
    · exact broken
  refine ⟨settings, rfl, none, broken, exitCode_crash ?_⟩
  rw [settings]
  exact broken

end Questionnaire
