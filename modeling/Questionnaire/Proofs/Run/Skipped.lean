import Questionnaire.Proofs.Definition.Malformed
import Questionnaire.Proofs.Run.Accounting
import Questionnaire.Proofs.Run.Interleaving

/-!
Files that do not load. Such a file is told and counted, and nothing else comes of it: two runs of
which one has it in its list and the other has not go the same way (`skipped_alone`). That holds of
a run that takes its files one after another, of a run of any limit whose input is kept, and of the
interleavings of a list, of which each gives one of the shorter list when the file is left out.
-/
namespace Questionnaire
open Files

/-- The counts of a file that does not load. -/
def Stats.skip : Stats := { files := 1, filesFailed := 1 }

/-- A run that has skipped one file more than another, and has come to the same otherwise. -/
structure Progress.Skipped (e : Error) (p q : Progress) : Prop where
  tree : p.tree = q.tree
  pages : p.pages = q.pages
  log : ∃ before after, q.log = before ++ after ∧ p.log = before ++ .fileSkipped e :: after
  stats : p.stats = q.stats.merge Stats.skip

theorem runFile_of_error {t : Tree} {path : String} {e : Error}
    (fails : Definition.load t path = .error e) (root : String) (verbose : Bool) (n : Nat) :
    runFile root verbose t n path = ⟨t, n, [.fileSkipped e], Stats.skip⟩ := by
  rw [runFile, fails]
  rfl

namespace Progress.Skipped
variable {root : String} {verbose : Bool} {e : Error} {p q : Progress}

theorem skip (p : Progress) (path : String) :
    Skipped e (p.finish root verbose ⟨path, .error e⟩) p :=
  ⟨rfl, rfl, ⟨p.log, [], (List.append_nil _).symm, rfl⟩, rfl⟩

theorem finish (h : Skipped e p q) (f : OpenFile) :
    Skipped e (p.finish root verbose f) (q.finish root verbose f) := by
  obtain ⟨before, after, hq, hp⟩ := h.log
  simp only [Progress.finish, h.tree, h.pages]
  generalize finishFile root verbose q.tree q.pages f.path f.definition = file
  refine ⟨rfl, rfl, ⟨before, after ++ file.log, ?_, ?_⟩, ?_⟩
  · simp only [hq, List.append_assoc]
  · simp only [hp, List.append_assoc, List.cons_append]
  · simp only [h.stats, Stats.merge_assoc, Stats.merge_comm Stats.skip]

theorem next (h : Skipped e p q) (path : String) :
    Skipped e (p.next root verbose path) (q.next root verbose path) := by
  have read : p.read path = q.read path := by rw [Progress.read, Progress.read, h.tree]
  rw [Progress.next, Progress.next, read]
  exact h.finish _

theorem foldl_finish (h : Skipped e p q) (fs : List OpenFile) :
    Skipped e (fs.foldl (Progress.finish root verbose) p)
      (fs.foldl (Progress.finish root verbose) q) := by
  induction fs generalizing p q with
  | nil => exact h
  | cons f fs ih => exact ih (h.finish f)

theorem foldl_next (h : Skipped e p q) (paths : List String) :
    Skipped e (paths.foldl (Progress.next root verbose) p)
      (paths.foldl (Progress.next root verbose) q) := by
  induction paths generalizing p q with
  | nil => exact h
  | cons path paths ih => exact ih (h.next path)

end Progress.Skipped

section Kept
variable {root : String} {t : Tree} {before after : List String} {path : String} {e : Error}

theorem InputKept.drop (fails : Definition.load t path = .error e)
    (kept : InputKept root t (before ++ path :: after)) : InputKept root t (before ++ after) := by
  have loaded : Definition.loaded t (before ++ path :: after) =
      Definition.loaded t (before ++ after) := by
    simp [Definition.loaded, List.filterMap_append, fails, Except.toOption]
  intro rs hrs f hf
  rw [← loaded] at hrs
  refine kept rs hrs f ?_
  rcases List.mem_append.mp hf with h | h
  · exact List.mem_append_left _ h
  · exact List.mem_append_right _ (List.mem_cons_of_mem _ h)

theorem runFiles_skipped (fails : Definition.load t path = .error e)
    (kept : InputKept root t (before ++ path :: after)) (verbose : Bool) (limit limit' : Nat) :
    Progress.Skipped e (runFiles root verbose limit { tree := t } (before ++ path :: after))
      (runFiles root verbose limit' { tree := t } (before ++ after)) := by
  rw [runFiles_of_kept kept, runFiles_of_kept (kept.drop fails), List.map_append, List.map_append,
    List.foldl_append, List.foldl_append, List.map_cons, List.foldl_cons, Progress.read, fails]
  exact (Progress.Skipped.skip _ path).foldl_finish _

end Kept

/-- A file without pages, of which nothing has come. -/
structure FileTask.Idle (f : FileTask) : Prop where
  read : ∀ d, f.read ≠ some (.ok d)
  numbered : f.numbered = []
  writes : f.writes = []

namespace FileTask.Idle
variable {f : FileTask}

theorem pages (h : f.Idle) : f.pages = [] := by
  rw [FileTask.pages]
  split
  · rename_i d hd
    exact absurd hd (h.read d)
  · rfl

theorem records (h : f.Idle) : f.records = [] := by
  rw [FileTask.records, outcomes, h.numbered]
  rfl

theorem finished (h : f.Idle) (read : f.read ≠ none) : f.Finished :=
  ⟨read, by rw [h.numbered, h.pages]; rfl, by rw [h.writes, h.records]; rfl⟩

end FileTask.Idle

namespace RunState
variable {root : String} {t : Tree} {s s' : RunState}

/-- A step is one of a single file, whatever other files there are. A file without pages can only be
read, and is read once. -/
theorem Step.single (step : Step root s s') : ∃ before f f' after,
    s.files = before ++ f :: after ∧ s'.files = before ++ f' :: after ∧
      (∀ others others', Step root ⟨s.tree, s.pages, others ++ f :: others'⟩
        ⟨s'.tree, s'.pages, others ++ f' :: others'⟩) ∧
      (∀ d, f.read = some d → f'.read = some d) ∧
      (f.Idle → s'.tree = s.tree ∧ s'.pages = s.pages ∧ f'.numbered = [] ∧ f'.writes = []) := by
  cases step with
  | @read t n before after f unread =>
    refine ⟨before, f, _, after, rfl, rfl, fun _ _ => .read unread, fun d hd => ?_, fun idle => ?_⟩
    · rw [unread] at hd
      cases hd
    · exact ⟨rfl, rfl, idle.numbered, idle.writes⟩
  | @number t n before after f p next =>
    refine ⟨before, f, _, after, rfl, rfl, fun _ _ => .number next, fun _ hd => hd, fun idle => ?_⟩
    rw [idle.pages] at next
    cases next
  | @write t n before after f r next =>
    refine ⟨before, f, _, after, rfl, rfl, fun _ _ => .write next, fun _ hd => hd, fun idle => ?_⟩
    rw [idle.records] at next
    cases next

/-- Two places in a list are the same, or one is in front of the other. -/
theorem split_cases {α : Type} {before before' after after' : List α} {a a' : α}
    (h : before ++ a :: after = before' ++ a' :: after') :
    (before = before' ∧ a = a' ∧ after = after') ∨
      (∃ mid, before' = before ++ a :: mid ∧ after = mid ++ a' :: after') ∨
      ∃ mid, before = before' ++ a' :: mid ∧ after' = mid ++ a :: after := by
  rcases List.append_eq_append_iff.mp h with ⟨mid, rfl, tail⟩ | ⟨mid, rfl, tail⟩
  · cases mid with
    | nil =>
      obtain ⟨rfl, rfl⟩ := List.cons.inj tail
      exact Or.inl ⟨(List.append_nil _).symm, rfl, rfl⟩
    | cons b mid =>
      obtain ⟨rfl, rfl⟩ := List.cons.inj tail
      exact Or.inr (Or.inl ⟨mid, rfl, rfl⟩)
  · cases mid with
    | nil =>
      obtain ⟨rfl, rfl⟩ := List.cons.inj tail
      exact Or.inl ⟨List.append_nil _, rfl, rfl⟩
    | cons b mid =>
      obtain ⟨rfl, rfl⟩ := List.cons.inj tail
      exact Or.inr (Or.inr ⟨mid, rfl, rfl⟩)

/-- A run with a file more than another: as long as it has not loaded, the other run is as far. -/
structure Ahead (root : String) (t : Tree) (paths : List String) (place : Nat) (s : RunState) :
    Prop where
  split : ∃ before f after, s.files = before ++ f :: after ∧ before.length = place ∧
    ((∃ d, f.read = some (.ok d)) ∨
      f.Idle ∧ Steps root (start t paths) ⟨s.tree, s.pages, before ++ after⟩)

theorem Ahead.step {paths : List String} {place : Nat} (ahead : Ahead root t paths place s)
    (step : Step root s s') : Ahead root t paths place s' := by
  obtain ⟨before, f, after, files, length, state⟩ := ahead.split
  obtain ⟨others, g, g', others', now, next, anywhere, once, quiet⟩ := step.single
  rcases split_cases (now.symm.trans files) with ⟨rfl, rfl, rfl⟩ | ⟨mid, rfl, rfl⟩ | ⟨mid, rfl, rfl⟩
  · -- The step is one of the file itself.
    refine ⟨others, g', others', next, length, ?_⟩
    rcases state with ⟨d, loaded⟩ | ⟨idle, reached⟩
    · exact Or.inl ⟨d, once _ loaded⟩
    · obtain ⟨tree, pages, numbered, writes⟩ := quiet idle
      by_cases loaded : ∃ d, g'.read = some (.ok d)
      · exact Or.inl loaded
      · rw [tree, pages]
        exact Or.inr ⟨⟨not_exists.mp loaded, numbered, writes⟩, reached⟩
  · refine ⟨others ++ g' :: mid, f, after, ?_, ?_, ?_⟩
    · rw [next, List.append_assoc, List.cons_append]
    · simpa using length
    · refine state.imp_right fun ⟨idle, reached⟩ => ⟨idle, ?_⟩
      rw [List.append_assoc] at reached ⊢
      exact reached.tail (anywhere others (mid ++ after))
  · refine ⟨before, f, mid ++ g' :: others', ?_, length, ?_⟩
    · rw [next, List.append_assoc, List.cons_append]
    · refine state.imp_right fun ⟨idle, reached⟩ => ⟨idle, ?_⟩
      rw [← List.append_assoc] at reached ⊢
      exact reached.tail (anywhere (before ++ mid) others')

theorem Ahead.of_steps {before after : List String} {path : String}
    (steps : Steps root (start t (before ++ path :: after)) s) :
    Ahead root t (before ++ after) before.length s := by
  induction steps with
  | refl =>
    refine ⟨before.map .unread, .unread path, after.map .unread, ?_, List.length_map _,
      Or.inr ⟨⟨fun _ h => (nomatch h), rfl, rfl⟩, ?_⟩⟩
    · rw [start, List.map_append, List.map_cons]
    · rw [← List.map_append]
      exact .refl
  | tail _ next ih => exact ih.step next

theorem stats_insert {n : Nat} {before after : List FileTask} {f : FileTask} {e : Error}
    (fails : f.read = some (.error e)) :
    stats ⟨t, n, before ++ f :: after⟩ = (stats ⟨t, n, before ++ after⟩).merge Stats.skip := by
  have skip : f.stats = Stats.skip := by rw [FileTask.stats, fails]; rfl
  have moved : (before ++ f :: after).Perm (before ++ after ++ [f]) :=
    List.perm_middle.trans (List.perm_append_singleton f (before ++ after)).symm
  rw [stats, stats, Stats.foldl_merge_perm moved, List.foldl_append, List.foldl_cons, skip]
  rfl

/-- A file that has not loaded can be left out of a run. -/
theorem Interleaves.drop {before after : List String} {path : String} {t' : Tree} {n : Nat}
    {fs gs : List FileTask} {f : FileTask} {e : Error}
    (run : Interleaves root t (before ++ path :: after) ⟨t', n, fs ++ f :: gs⟩)
    (length : fs.length = before.length) (fails : f.read = some (.error e)) :
    Interleaves root t (before ++ after) ⟨t', n, fs ++ gs⟩ := by
  obtain ⟨fs', f', gs', files, length', state⟩ := (Ahead.of_steps run.steps).split
  obtain ⟨rfl, tail⟩ := List.append_inj files (length.trans length'.symm)
  obtain ⟨rfl, rfl⟩ := List.cons.inj tail
  refine ⟨?_, fun g hg => ?_⟩
  · rcases state with ⟨d, loaded⟩ | ⟨_, reached⟩
    · rw [fails] at loaded
      cases loaded
    · exact reached
  · refine run.finished g ?_
    rcases List.mem_append.mp hg with h | h
    · exact List.mem_append_left _ h
    · exact List.mem_append_right _ (List.mem_cons_of_mem _ h)

/-- A file without pages stands by while others are worked on. -/
theorem Step.insert {f : FileTask} {before after : List FileTask} (step : Step root s s')
    (files : s.files = before ++ after) : ∃ before' after', s'.files = before' ++ after' ∧
      before'.length = before.length ∧
      Step root ⟨s.tree, s.pages, before ++ f :: after⟩
        ⟨s'.tree, s'.pages, before' ++ f :: after'⟩ := by
  obtain ⟨others, g, g', others', now, next, anywhere, _, _⟩ := step.single
  rcases List.append_eq_append_iff.mp (files.symm.trans now) with ⟨mid, rfl, rfl⟩ | ⟨mid, rfl, tail⟩
  · refine ⟨before, mid ++ g' :: others', ?_, rfl, ?_⟩
    · rw [next, List.append_assoc]
    · simpa using anywhere (before ++ f :: mid) others'
  · cases mid with
    | nil =>
      obtain rfl : after = g :: others' := tail.symm
      refine ⟨others, g' :: others', next, by simp, ?_⟩
      simpa using anywhere (others ++ [f]) others'
    | cons h mid =>
      obtain ⟨rfl, rfl⟩ := List.cons.inj tail
      refine ⟨others ++ g' :: mid, after, ?_, by simp, ?_⟩
      · rw [next, List.append_assoc]
        rfl
      · simpa using anywhere others (mid ++ f :: after)

theorem Steps.insert {f : FileTask} {before after : List FileTask} (steps : Steps root s s')
    (files : s.files = before ++ after) : ∃ before' after', s'.files = before' ++ after' ∧
      before'.length = before.length ∧
      Steps root ⟨s.tree, s.pages, before ++ f :: after⟩
        ⟨s'.tree, s'.pages, before' ++ f :: after'⟩ := by
  induction steps with
  | refl => exact ⟨before, after, files, rfl, .refl⟩
  | tail _ step ih =>
    obtain ⟨fs, gs, split, length, reached⟩ := ih
    obtain ⟨fs', gs', split', length', next⟩ := step.insert split
    exact ⟨fs', gs', split', length'.trans length, reached.tail next⟩

/-- A file that does not load can be put into a run. -/
theorem Interleaves.insert {before after : List String} {path : String} {e : Error}
    (run : Interleaves root t (before ++ after) s) (fails : Definition.load t path = .error e) :
    ∃ fs f gs, s.files = fs ++ gs ∧ fs.length = before.length ∧ f.read = some (.error e) ∧
      Interleaves root t (before ++ path :: after) ⟨s.tree, s.pages, fs ++ f :: gs⟩ := by
  let f : FileTask := { FileTask.unread path with read := some (Definition.load t path) }
  have read : f.read = some (.error e) := congrArg some fails
  have idle : f.Idle := ⟨fun d => by rw [read]; exact nofun, rfl, rfl⟩
  obtain ⟨fs, gs, split, length, reached⟩ := Steps.insert (f := f) run.steps List.map_append
  refine ⟨fs, f, gs, split, length.trans (List.length_map _), read, ?_, fun g hg => ?_⟩
  · refine .head ?_ reached
    rw [start, List.map_append, List.map_cons]
    exact .read rfl
  · rcases List.mem_append.mp hg with h | h
    · exact run.finished g (split ▸ List.mem_append_left _ h)
    · rcases List.mem_cons.mp h with rfl | h
      · exact idle.finished (read ▸ Option.some_ne_none _)
      · exact run.finished g (split ▸ List.mem_append_right _ h)

end RunState

/-- A file that does not load changes nothing but its counts and what is told of it, wherever it
stands in a list: in a pass over the files, in a run that keeps its input and in any interleaving. -/
theorem skipped_alone (root : String) (verbose : Bool) (t : Tree) (path : String) :
    ((∃ e, Definition.load t path = .error e) ↔ Definition.Unloadable t path) ∧
      ∀ e,
        (∀ n, Definition.load t path = .error e →
          runFile root verbose t n path = ⟨t, n, [.fileSkipped e], Stats.skip⟩) ∧
        (∀ p before after,
          Definition.load (before.foldl (Progress.next root verbose) p).tree path = .error e →
          Progress.Skipped e ((before ++ path :: after).foldl (Progress.next root verbose) p)
            ((before ++ after).foldl (Progress.next root verbose) p)) ∧
        (∀ limit limit' before after, Definition.load t path = .error e →
          InputKept root t (before ++ path :: after) →
          Progress.Skipped e (runFiles root verbose limit { tree := t } (before ++ path :: after))
            (runFiles root verbose limit' { tree := t } (before ++ after))) ∧
        (∀ before after t' n fs f gs,
          RunState.Interleaves root t (before ++ path :: after) ⟨t', n, fs ++ f :: gs⟩ →
          fs.length = before.length → f.read = some (.error e) →
          RunState.Interleaves root t (before ++ after) ⟨t', n, fs ++ gs⟩ ∧
            RunState.stats ⟨t', n, fs ++ f :: gs⟩ =
              (RunState.stats ⟨t', n, fs ++ gs⟩).merge Stats.skip) ∧
        ∀ before after s, Definition.load t path = .error e →
          RunState.Interleaves root t (before ++ after) s →
          ∃ fs f gs, s.files = fs ++ gs ∧ fs.length = before.length ∧ f.read = some (.error e) ∧
            RunState.Interleaves root t (before ++ path :: after)
              ⟨s.tree, s.pages, fs ++ f :: gs⟩ := by
  refine ⟨Definition.load_fails, fun e => ⟨?_, ?_, ?_, ?_, ?_⟩⟩
  · exact fun n fails => runFile_of_error fails root verbose n
  · intro p before after fails
    rw [List.foldl_append, List.foldl_append, List.foldl_cons, Progress.next, Progress.read, fails]
    exact (Progress.Skipped.skip _ path).foldl_next after
  · exact fun limit limit' _ _ fails kept => runFiles_skipped fails kept verbose limit limit'
  · exact fun before after t' n fs f gs run length fails =>
      ⟨run.drop length fails, RunState.stats_insert fails⟩
  · exact fun before after s fails run => run.insert fails

/-- Between two good files, one with a good page in front of a page that is no mapping. -/
private def lateFailureTree : Tree where
  root := .dir [("work", .dir
    [("a.yml", .file "P:\n  A: \x7bkey: a\x7d\n".toUTF8),
      ("bad.yml", .file "P:\n  X: \x7bkey: b\x7d\nQ: [1]\n".toUTF8),
      ("b.yml", .file "P:\n  B: \x7bkey: b\x7d\n".toUTF8), ("out", .dir [])])]
  cwd := ["work"]

theorem skipped_alone_lateFailure :
    let p := runFiles "out" false 2 { tree := lateFailureTree } ["a.yml", "bad.yml", "b.yml"]
    let q := runFiles "out" false 1 { tree := lateFailureTree } ["a.yml", "b.yml"]
    InputKept "out" lateFailureTree ["a.yml", "bad.yml", "b.yml"] ∧
      ∃ e, Definition.load lateFailureTree "bad.yml" = .error e ∧ Progress.Skipped e p q ∧
        q.stats = ⟨2, 0, 2, 2, 0, 0⟩ ∧ p.stats = ⟨3, 1, 2, 2, 0, 0⟩ ∧
        p.tree.readText "out/b.yml" = .ok "question: B\n" := by
  intro p q
  have kept : InputKept "out" lateFailureTree ["a.yml", "bad.yml", "b.yml"] := by
    have all : ∀ rs ∈ ((Definition.loaded lateFailureTree
        ["a.yml", "bad.yml", "b.yml"]).flatMap Definition.records).inits,
        ∀ f ∈ ["a.yml", "bad.yml", "b.yml"],
          (Record.attemptAll "out" lateFailureTree rs).2.readText f =
            lateFailureTree.readText f := by decide +kernel
    exact fun rs hrs => all rs ((List.mem_inits _ _).mpr hrs)
  have late : (Definition.load lateFailureTree "bad.yml").isOk = false := by decide +kernel
  have counts : q.stats = ⟨2, 0, 2, 2, 0, 0⟩ := by decide +kernel
  have text : p.tree.readText "out/b.yml" = .ok "question: B\n" := by decide +kernel
  cases fails : Definition.load lateFailureTree "bad.yml" with
  | ok d => rw [fails] at late; cases late
  | error e =>
    obtain ⟨_, _, run, _, _⟩ := (skipped_alone "out" false lateFailureTree "bad.yml").2 e
    have skipped : Progress.Skipped e p q := run 2 1 ["a.yml"] ["b.yml"] fails kept
    refine ⟨kept, e, rfl, skipped, counts, ?_, text⟩
    rw [skipped.stats, counts]
    rfl

end Questionnaire
