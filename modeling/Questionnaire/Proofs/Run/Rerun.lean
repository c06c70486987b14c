import Questionnaire.Proofs.Files.Linkless
import Questionnaire.Proofs.Run.Attempts
import Questionnaire.Proofs.Run.Permits

/-!
Running once more. With its input out of reach of its output (`Sheltered`) a run reads the same
files with the same texts whatever it has written before (`load_attemptAll`). So a second run that
takes the same turns goes along with the first one (`Twice.turns`): it writes the same records in
the same order, each of its writes ends in the same way, and in the end nothing has changed
(`run_again`).
-/
namespace Questionnaire
open Files
open Files.Tree (Twin)
open Record (attemptAll)

/-- Nothing in the input or directly in the output is a link, and the output directory is not the
input root and not below it. -/
structure Sheltered (input output : String) (t : Tree) : Prop where
  proper : t.root.Proper
  linkless : ∀ place es, t.locate input = .ok (.entry place (.dir es)) → (Entry.dir es).Linkless
  unlinked : t.Unlinked output
  outside : ∀ place es out, t.locate input = .ok (.entry place (.dir es)) →
    t.outputPlace? output = some out → ¬ place <+: out

section Kept
variable {t : Tree} {input root : String} {place : List String} {es : Entries}

/-- A file that is put outside of a directory does not change the directory. -/
theorem locate_put_outside {out : List String} {name : String} (unlinked : t.Unlinked root)
    (writes : t.outputPlace? root = some out) (accepted : t.refusal? out name = none)
    (leads : t.locate input = .ok (.entry place (.dir es))) (outside : ¬ place <+: out)
    (c : ByteArray) :
    (t.put (out ++ [name]) (.file c)).locate input = .ok (.entry place (.dir es)) := by
  have frame := Tree.sameFrame_put writes unlinked accepted c
  obtain ⟨ds, led⟩ := Tree.locate_sameFrame frame rfl leads
  have dir := Tree.at?_of_locate leads
  have notBelow : ¬ out ++ [name] <+: place := by
    rintro ⟨rest, rfl⟩
    apply (Tree.refusal?_eq_none.mp accepted).2.2
    rw [Tree.node?, Entry.node?]
    cases rest with
    | nil =>
      rw [List.append_nil] at dir
      rw [dir]
      rfl
    | cons n rest =>
      obtain ⟨ps, above⟩ := Entry.dir_of_at?_append dir
      rw [above]
      rfl
  have notAbove : ¬ place <+: out ++ [name] := by
    intro above
    rcases List.prefix_concat_iff.mp above with same | within
    · exact notBelow (same ▸ List.prefix_rfl)
    · exact outside within
  have kept := Entry.at?_alter_of_apart (f := fun _ => some (.file c)) notAbove notBelow t.root
  have after := Tree.at?_of_locate led
  change (Entry.alter _ _ t.root).at? place = _ at after
  rw [kept, dir] at after
  rw [led, Option.some.inj after]

theorem locate_attempt {r : Record} (hname : IsName r.filename) (unlinked : t.Unlinked root)
    (leads : t.locate input = .ok (.entry place (.dir es)))
    (outside : ∀ out, t.outputPlace? root = some out → ¬ place <+: out) :
    (r.attempt root t).2.locate input = .ok (.entry place (.dir es)) := by
  cases writes : t.outputPlace? root with
  | none =>
    rw [Record.attempt_idle hname writes]
    exact leads
  | some out =>
    rw [Record.attempt_leads unlinked hname writes, Record.verdictAt]
    split
    · exact leads
    · split
      · exact leads
      · rename_i accepted
        exact locate_put_outside unlinked writes accepted leads (outside out writes) _

theorem locate_attemptAll {rs : List Record} (names : ∀ r ∈ rs, IsName r.filename)
    (unlinked : t.Unlinked root) (leads : t.locate input = .ok (.entry place (.dir es)))
    (outside : ∀ out, t.outputPlace? root = some out → ¬ place <+: out) :
    (attemptAll root t rs).2.locate input = .ok (.entry place (.dir es)) := by
  induction rs generalizing t with
  | nil => exact leads
  | cons r rs ih =>
    have hname := names r List.mem_cons_self
    have twin := Record.twin_attempt unlinked hname
    apply ih
    · exact fun s hs => names s (List.mem_cons_of_mem _ hs)
    · exact twin.unlinked unlinked
    · exact locate_attempt hname unlinked leads outside
    · exact fun out writes => outside out (twin.outputPlace?.symm.trans writes)

end Kept

theorem exists_leads_of_walk {t : Tree} {root : String} {files : List String}
    (walked : t.walk root = .ok files) :
    ∃ place es, t.locate root = .ok (.entry place (.dir es)) := by
  refine Classical.byContradiction fun none => ?_
  obtain ⟨e, fails⟩ := Tree.walk_error fun place es leads => none ⟨place, es, leads⟩
  cases walked.symm.trans fails

namespace Sheltered
variable {input output : String} {t : Tree} {files : List String} {rs : List Record}

/-- The files that a walk finds are found again, and read as before, when records have been
written. -/
theorem walk_attemptAll (h : Sheltered input output t) (walked : t.walk input = .ok files)
    (names : ∀ r ∈ rs, IsName r.filename) : (attemptAll output t rs).2.walk input = .ok files := by
  obtain ⟨place, es, leads⟩ := exists_leads_of_walk walked
  have also := locate_attemptAll names h.unlinked leads fun out => h.outside place es out leads
  rw [← walked]
  exact Tree.walk_linkless (h.proper.at? (Tree.at?_of_locate leads)) (h.linkless place es leads)
    leads also

theorem load_attemptAll (h : Sheltered input output t) (walked : t.walk input = .ok files)
    (names : ∀ r ∈ rs, IsName r.filename) {path : String} (found : path ∈ files) :
    Definition.load (attemptAll output t rs).2 path = Definition.load t path := by
  obtain ⟨place, es, leads⟩ := exists_leads_of_walk walked
  have also := locate_attemptAll names h.unlinked leads fun out => h.outside place es out leads
  apply Definition.load_congr
  exact Tree.readText_linkless (h.proper.at? (Tree.at?_of_locate leads))
    (h.linkless place es leads) leads also walked found

end Sheltered

theorem OpenFile.isName_records (f : OpenFile) : ∀ r ∈ f.records, IsName r.filename := by
  obtain ⟨path, definition⟩ := f
  cases definition with
  | error e => exact fun r hr => absurd hr List.not_mem_nil
  | ok d => exact fun r hr => Definition.isName_records hr

/-- Working on an open file in two twin trees comes to the same but for the trees. -/
theorem finishFile_twin {root : String} {t s : Tree} (twin : Twin root t s)
    (unlinked : t.Unlinked root) (verbose : Bool) (n : Nat) (f : OpenFile) :
    let first := finishFile root verbose t n f.path f.definition
    let second := finishFile root verbose s n f.path f.definition
    second.pages = first.pages ∧ second.log = first.log ∧ second.stats = first.stats := by
  have same := Record.attemptAll_twin twin unlinked f.isName_records
  obtain ⟨path, definition⟩ := f
  cases definition with
  | error e => exact ⟨rfl, rfl, rfl⟩
  | ok d =>
    change (attemptAll root s (Definition.records ⟨d.pages⟩)).1 =
      (attemptAll root t (Definition.records ⟨d.pages⟩)).1 at same
    simp only [finishFile, runPages_records, same, and_self]

/-- Two runs over the same files that have written the same records, one from a tree `t` and one
from a tree `s`. -/
structure Twice (root : String) (files : List String) (t s : Tree) (u v : Underway) : Prop where
  trees : ∃ rs : List Record, (∀ r ∈ rs, IsName r.filename) ∧
    u.progress.tree = (attemptAll root t rs).2 ∧ v.progress.tree = (attemptAll root s rs).2
  pages : v.progress.pages = u.progress.pages
  log : v.progress.log = u.progress.log
  stats : v.progress.stats = u.progress.stats
  opened : v.opened = u.opened
  waiting : v.waiting = u.waiting
  known : u.waiting ⊆ files

/-- Two trees in which files are read alike, whatever records have been written in both. -/
structure ReadAlike (root : String) (files : List String) (t s : Tree) : Prop where
  twin : Twin root t s
  unlinked : t.Unlinked root
  load : ∀ rs : List Record, (∀ r ∈ rs, IsName r.filename) → ∀ path ∈ files,
    Definition.load (attemptAll root s rs).2 path = Definition.load (attemptAll root t rs).2 path

namespace Twice
variable {c : Config} {files : List String} {t s : Tree} {u v u' : Underway} {x : Turn}

theorem read (alike : ReadAlike c.outputRoot files t s) (h : Twice c.outputRoot files t s u v)
    {i : Nat} (taken : u.take c (.read i) = some u') :
    ∃ v', v.take c (.read i) = some v' ∧ Twice c.outputRoot files t s u' v' := by
  obtain ⟨path, there, rfl⟩ := Option.map_eq_some_iff.mp taken
  obtain ⟨rs, names, first, second⟩ := h.trees
  have found : path ∈ files := h.known (List.mem_of_getElem? there)
  have same : v.progress.read path = u.progress.read path := by
    rw [Progress.read, Progress.read, first, second, alike.load rs names path found]
  rw [← h.waiting] at there
  refine ⟨_, Option.map_eq_some_iff.mpr ⟨path, there, rfl⟩, ?_⟩
  constructor
  · exact ⟨rs, names, first, second⟩
  · exact h.pages
  · exact h.log
  · exact h.stats
  · rw [h.opened, same]
  · rw [h.waiting]
  · exact fun f hf => h.known (List.mem_of_mem_eraseIdx hf)

theorem finish (alike : ReadAlike c.outputRoot files t s) (h : Twice c.outputRoot files t s u v)
    {i : Nat} (taken : u.take c (.finish i) = some u') :
    ∃ v', v.take c (.finish i) = some v' ∧ Twice c.outputRoot files t s u' v' := by
  obtain ⟨f, there, rfl⟩ := Option.map_eq_some_iff.mp taken
  obtain ⟨rs, names, first, second⟩ := h.trees
  have before := Record.twin_attemptAll alike.unlinked names
  have after := Record.twin_attemptAll (alike.twin.unlinked alike.unlinked) names
  have twin : Twin c.outputRoot u.progress.tree v.progress.tree := by
    rw [first, second]
    exact before.symm.trans (alike.twin.trans after)
  have unlinked : u.progress.tree.Unlinked c.outputRoot := by
    rw [first]
    exact before.unlinked alike.unlinked
  obtain ⟨pages, log, stats⟩ := finishFile_twin twin unlinked c.verboseLogging u.progress.pages f
  rw [← h.opened] at there
  refine ⟨_, Option.map_eq_some_iff.mpr ⟨f, there, rfl⟩, ?_⟩
  constructor
  · refine ⟨rs ++ f.records, List.forall_mem_append.mpr ⟨names, f.isName_records⟩, ?_, ?_⟩
    · simp only [Progress.finish, finishFile_tree, Record.attemptAll_append, first]
    · simp only [Progress.finish, finishFile_tree, Record.attemptAll_append, second]
  · simp only [Progress.finish, h.pages, pages]
  · simp only [Progress.finish, h.pages, h.log, log]
  · simp only [Progress.finish, h.pages, h.stats, stats]
  · rw [h.opened]
  · exact h.waiting
  · exact h.known

/-- What is a turn of the first run is one of the second run too. -/
theorem turn (alike : ReadAlike c.outputRoot files t s) (h : Twice c.outputRoot files t s u v)
    (taken : u.turn c x = some u') :
    ∃ v', v.turn c x = some v' ∧ Twice c.outputRoot files t s u' v' := by
  obtain ⟨allowed, taken⟩ := Underway.turn_eq_some.mp taken
  have room : v.allows c.maxConcurrentFiles x := by
    cases x with
    | finish i => rfl
    | read i =>
      rw [Underway.allows, h.opened]
      exact allowed
  cases x with
  | read i =>
    obtain ⟨v', also, next⟩ := h.read alike taken
    exact ⟨v', Underway.turn_eq_some.mpr ⟨room, also⟩, next⟩
  | finish i =>
    obtain ⟨v', also, next⟩ := h.finish alike taken
    exact ⟨v', Underway.turn_eq_some.mpr ⟨room, also⟩, next⟩

theorem turns {xs : List Turn} (alike : ReadAlike c.outputRoot files t s)
    (h : Twice c.outputRoot files t s u v) (taken : u.turns c xs = some u') :
    ∃ v', v.turns c xs = some v' ∧ Twice c.outputRoot files t s u' v' := by
  induction xs generalizing u v with
  | nil =>
    cases taken
    exact ⟨v, rfl, h⟩
  | cons x xs ih =>
    obtain ⟨w, first, rest⟩ := Underway.turns_cons.mp taken
    obtain ⟨w', also, next⟩ := h.turn alike first
    obtain ⟨v', onward, last⟩ := ih next rest
    exact ⟨v', Underway.turns_cons.mpr ⟨w', also, onward⟩, last⟩

theorem start (root : String) (files : List String) (t s : Tree) :
    Twice root files t s (Underway.start t files) (Underway.start s files) :=
  ⟨⟨[], fun _ h => absurd h List.not_mem_nil, rfl, rfl⟩, rfl, rfl, rfl, rfl, rfl,
    List.Subset.refl files⟩

end Twice

section Again
variable {c : Config} {t : Tree} {files : List String} {xs : List Turn} {p : Progress}

/-- After a run in turns the same turns come to the same once more. -/
theorem turns_again (sheltered : Sheltered c.inputRoot c.outputRoot t)
    (walked : t.walk c.inputRoot = .ok files)
    (taken : (Underway.start t files).turns c.normalized xs = some ⟨p, [], []⟩) :
    p.tree.walk c.inputRoot = .ok files ∧
      (Underway.start p.tree files).turns c.normalized xs = some ⟨p, [], []⟩ ∧
      Twin c.outputRoot t p.tree := by
  -- Put next to itself the first run gives its records, and so the tree that the second one finds.
  have self : ReadAlike c.outputRoot files t t := ⟨.refl, sheltered.unlinked, fun _ _ _ _ => rfl⟩
  obtain ⟨_, _, ⟨rs, names, tree, _⟩, _⟩ :=
    (Twice.start c.outputRoot files t t).turns (c := c.normalized) self taken
  have tree : p.tree = (attemptAll c.outputRoot t rs).2 := tree
  have twin := Record.twin_attemptAll sheltered.unlinked names
  have alike : ReadAlike c.outputRoot files t (attemptAll c.outputRoot t rs).2 := by
    refine ⟨twin, sheltered.unlinked, fun ss more path found => ?_⟩
    have both : ∀ r ∈ rs ++ ss, IsName r.filename := List.forall_mem_append.mpr ⟨names, more⟩
    have twice := sheltered.load_attemptAll walked both found
    rw [Record.attemptAll_append] at twice
    exact twice.trans (sheltered.load_attemptAll walked more found).symm
  rw [← tree] at twin alike
  obtain ⟨⟨q, opened, waiting⟩, also, again⟩ :=
    (Twice.start c.outputRoot files t p.tree).turns (c := c.normalized) alike taken
  obtain ⟨ss, more, first, second⟩ := again.trees
  have same : q.tree = p.tree := by
    change p.tree = _ at first
    change q.tree = _ at second
    rw [second, first]
    exact Record.attemptAll_again sheltered.unlinked more
  obtain rfl : q = p := by
    obtain ⟨pages, log, stats⟩ : q.pages = p.pages ∧ q.log = p.log ∧ q.stats = p.stats :=
      ⟨again.pages, again.log, again.stats⟩
    cases q
    cases p
    simp only at same pages log stats
    rw [same, pages, log, stats]
  obtain rfl : opened = [] := again.opened
  obtain rfl : waiting = [] := again.waiting
  refine ⟨?_, also, twin⟩
  rw [tree]
  exact sheltered.walk_attemptAll walked names

/-- What is told about an output directory is the same for twins. -/
theorem outputWarning_twin {root : String} {t s : Tree} (twin : Twin root t s) :
    outputWarning s root = outputWarning t root := by
  by_cases empty : root = ""
  · subst empty
    have missing : ∀ u : Tree, u.entry "" = .error .notFound := fun _ => rfl
    rw [outputWarning, outputWarning, missing, missing]
  · have path : rootPath root = root := if_neg empty
    cases leads : t.outputPlace? root with
    | none => rw [twin.idle leads]
    | some place =>
      have quiet : ∀ u : Tree, u.outputPlace? root = some place → outputWarning u root = [] := by
        intro u there
        obtain ⟨es, led⟩ := Tree.outputPlace?_eq_some.mp there
        rw [path] at led
        rw [outputWarning, Tree.entry, led]
        rfl
      rw [quiet t leads, quiet s (twin.outputPlace?.trans leads)]

/-- The turns of a run determine what it returns. -/
theorem RunsBy.same_result {m n : Option Stats} {o q : RunOutcome} (runs : RunsBy c t xs m o)
    (other : RunsBy c t xs n q) : n = m ∧ q.tree = o.tree ∧ q.result = o.result := by
  obtain ⟨tree, stats⟩ := RunsBy.same_work rfl rfl runs other
  refine ⟨stats.symm, tree.symm, ?_⟩
  cases runs with
  | noInput _ fails =>
    cases other with
    | noInput _ again => rw [Except.error.inj (again.symm.trans fails)]
    | done _ walked _ => cases fails.symm.trans walked
  | done _ walked _ =>
    cases other with
    | noInput _ fails => cases fails.symm.trans walked
    | done _ _ _ => exact congrArg (verdict c) (Option.some.inj stats).symm

/-- A second run comes to the same in all that it tells and returns, and changes nothing. So do the
same turns in any order that the limit allows. -/
theorem run_again {c : Config} {t : Tree} (sheltered : Sheltered c.inputRoot c.outputRoot t) :
    run c (run c t).tree = run c t ∧
      ∀ xs m o, RunsBy c t xs m o → RunsBy c o.tree xs m o ∧
        ∀ n q, RunsBy c o.tree xs n q → n = m ∧ q.tree = o.tree ∧ q.result = o.result := by
  constructor
  · rcases run_cases c t with ⟨_, _, _, ended⟩ | ⟨_, _, ended⟩ |
      ⟨files, work, walked, ⟨_, _, ended⟩ | ⟨k, made, ended⟩⟩
    · rw [ended, ended]
    · rw [ended, ended]
    · rw [ended, ended]
    · obtain ⟨rfl, _⟩ := permits?_eq_some.mp made
      let p := runFiles c.outputRoot c.verboseLogging c.normalized.maxConcurrentFiles
        { tree := t } files
      have first : (Underway.start t files).turns c.normalized
          (Turn.inOrder c.normalized.maxConcurrentFiles files.length) = some ⟨p, [], []⟩ :=
        turns_inOrder c.normalized t files c.one_le_normalized
      obtain ⟨found, again, twin⟩ := turns_again sheltered walked first
      have second := turns_inOrder c.normalized p.tree files c.one_le_normalized
      have same : runFiles c.outputRoot c.verboseLogging c.normalized.maxConcurrentFiles
          { tree := p.tree } files = p :=
        congrArg Underway.progress (Option.some.inj (second.symm.trans again))
      rw [ended]
      change run c p.tree = .worked c t files p
      rw [run_worked work found made, same, RunOutcome.worked, RunOutcome.worked,
        outputWarning_twin twin]
  · intro xs m o runs
    have again : RunsBy c o.tree xs m o := by
      cases runs with
      | noInput log fails => exact .noInput log fails
      | done log walked taken =>
        obtain ⟨found, again, _⟩ := turns_again sheltered walked taken
        exact .done log found again
    exact ⟨again, fun n q other => again.same_result other⟩

end Again

/-- A file that is left behind by an earlier run, a name that is used twice, one that a directory
has, a question without a key and a file that is no YAML. -/
private def staleTree : Tree where
  root := .dir [("work", .dir
    [("in", .dir
      [("a.yml", .file ("P:\n  A: \x7bkey: 17, n: 1\x7d\n  B: \x7bkey: taken\x7d\n" ++
          "  C: \x7bn: 3\x7d\n  D: \x7bkey: '17', n: 4\x7d\n").toUTF8),
        ("sub", .dir [("b.yml", .file "P: \x7bunclosed\n".toUTF8)])]),
      ("out", .dir [("17.yml", .file "long before\n".toUTF8), ("taken.yml", .dir [])])])]
  cwd := ["work"]

theorem run_again_stale :
    let c : Config := { inputRoot := "in", outputRoot := "out" }
    let o := run c staleTree
    Sheltered "in" "out" staleTree ∧ o.result.toOption = some ⟨2, 1, 1, 2, 1, 1⟩ ∧
      o.tree.readText "out/17.yml" = .ok "n: 4\nquestion: D\n" ∧
      run c o.tree = o ∧ ∃ xs m, RunsBy c o.tree xs m o := by
  intro c o
  have names : ∀ n ∈ ["work", "in", "out", "a.yml", "sub", "b.yml", "17.yml", "taken.yml"],
      isLegalName n := by decide
  simp only [List.forall_mem_cons, List.not_mem_nil, false_implies, implies_true] at names
  have proper : staleTree.root.Proper := by
    simp [staleTree, Entry.proper_dir_iff, Entry.Proper.file, names]
  have linkless : staleTree.root.Linkless := by
    apply_rules [Entry.Linkless.cons, Entry.linkless_nil, Entry.linkless_file]
  have sheltered : Sheltered "in" "out" staleTree := by
    constructor
    · exact proper
    · exact fun _ _ leads => linkless.at? (Tree.at?_of_locate leads)
    · exact Tree.unlinked_of_linkless fun _ _ leads => linkless.at? (Tree.at?_of_locate leads)
    · intro place es out leads writes within
      cases leads
      cases writes
      exact absurd within (by decide)
  obtain ⟨again, turns⟩ := run_again (c := c) sheltered
  obtain ⟨xs, m, runs⟩ := exists_runsBy (c := c) staleTree (by decide)
  have text : (o.tree.readText "out/17.yml").toOption = some "n: 4\nquestion: D\n" := by
    decide +kernel
  exact ⟨sheltered, by decide +kernel, eq_ok_of_toOption text, again, xs, m, (turns xs m o runs).1⟩

end Questionnaire
