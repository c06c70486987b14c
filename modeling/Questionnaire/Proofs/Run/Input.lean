import Questionnaire.Proofs.Files.Walk
import Questionnaire.Run.Batch

/-!
What a run takes as its input. If the input directory can be listed these are the files below it
(`input_found`); otherwise the run ends at once with an error that names it.
-/
namespace Questionnaire
open Files

theorem run_of_walk_error {c : Config} {t : Tree} {e : IoError}
    (fails : t.walk c.inputRoot = .error e) : ∃ log, run c t =
      ⟨t, log, .error (.noInput c.inputRoot (.traversal c.inputRoot e))⟩ := by
  have failed : t.walk c.normalized.inputRoot = .error e := fails
  simp only [run, failed]
  exact ⟨_, rfl⟩

/-- The work of a run is that on its files; without any it is done at once. -/
theorem run_of_walk_ok {c : Config} {t : Tree} {files : List String}
    (inRange : c.maxConcurrentFiles ≤ maxPermits) (walked : t.walk c.inputRoot = .ok files) :
    let p := runFiles c.outputRoot c.verboseLogging c.normalized.maxConcurrentFiles
      { tree := t } files
    ∃ log, run c t = ⟨p.tree, log, verdict c p.stats⟩ := by
  have found : t.walk c.normalized.inputRoot = .ok files := walked
  cases files with
  | nil =>
    have clean : verdict c {} = .ok {} := by
      rw [verdict, show Stats.hasErrors {} = false from rfl, Bool.and_false]
      rfl
    simp only [run, found, Except.mapError, runFiles, List.take_nil, List.drop_nil, List.map_nil,
      runOpen, List.foldl_nil, clean]
    exact ⟨_, rfl⟩
  | cons f files =>
    have limit : ¬ maxPermits < c.normalized.maxConcurrentFiles := by
      simp only [Config.normalized, maxPermits] at inRange ⊢
      omega
    simp only [run, found, Except.mapError, if_neg limit]
    exact ⟨_, rfl⟩

/-- The input of a run is what its walk finds. Directories on the way are never links, so a walk
comes to an end whatever the links lead to; a root may itself be a link. -/
theorem input_found {t : Tree} (proper : t.root.Proper) (root : String) :
    (∀ place es, t.locate root = .ok (.entry place (.dir es)) →
      ∃ files, t.walk root = .ok files ∧ t.Walked root place files) ∧
    ((∀ place es, t.locate root ≠ .ok (.entry place (.dir es))) →
      ∃ e, t.walk root = .error e ∧ ∀ config : Config, config.inputRoot = root →
        (run config t).result = .error (.noInput root (.traversal root e)) ∧
          (run config t).tree = t) := by
  constructor
  · intro place es leads
    exact Tree.walk_finds proper leads
  · intro noDir
    obtain ⟨e, fails⟩ := Tree.walk_error noDir
    refine ⟨e, fails, ?_⟩
    rintro config rfl
    obtain ⟨log, ended⟩ := run_of_walk_error fails
    rw [ended]
    exact ⟨rfl, rfl⟩

/-- Links in a chain, to nothing, to themselves, to a directory and to one above. -/
private def linkedTree : Tree where
  root := .dir [("work", .dir
    [("in", .dir
      [("a.yml", .file .empty), ("gone", .link "nowhere"), ("self", .link "self"),
        ("linked", .link "sub"), ("chain", .link "next"), ("next", .link "sub/b.yml"),
        ("sub", .dir [("b.yml", .file .empty), ("up", .link ".."),
          ("deep", .dir [("c.yml", .link "../../a.yml")])])]),
      ("entry", .link "in")])]
  cwd := ["work"]

theorem input_found_links :
    let files := ["entry/a.yml", "entry/chain", "entry/next", "entry/sub/b.yml",
      "entry/sub/deep/c.yml"]
    linkedTree.root.Proper ∧ linkedTree.walk "entry" = .ok files ∧
      linkedTree.Walked "entry" ["work", "in"] files ∧
      ∃ e, linkedTree.walk "in/gone" = .error e ∧
        (run { inputRoot := "in/gone" } linkedTree).result =
          .error (.noInput "in/gone" (.traversal "in/gone" e)) := by
  intro files
  have proper : linkedTree.root.Proper := by
    have names : ∀ n ∈ ["work", "in", "entry", "a.yml", "gone", "self", "linked", "chain", "next",
        "sub", "b.yml", "up", "deep", "c.yml"], isLegalName n := by decide
    simp only [List.forall_mem_cons, List.not_mem_nil, false_implies, implies_true] at names
    simp [linkedTree, Entry.proper_dir_iff, Entry.Proper.file, Entry.Proper.link, names]
  have walked : linkedTree.walk "entry" = .ok files := by decide +kernel
  obtain ⟨found, hfound, all⟩ := (input_found proper "entry").1 ["work", "in"] _ rfl
  obtain rfl := Except.ok.inj (walked.symm.trans hfound)
  have noDir : ∀ place es, linkedTree.locate "in/gone" ≠ .ok (.entry place (.dir es)) := by
    intro place es leads
    cases leads
  obtain ⟨e, fails, told⟩ := (input_found proper "in/gone").2 noDir
  exact ⟨proper, walked, all, e, fails, (told _ rfl).1⟩

end Questionnaire
