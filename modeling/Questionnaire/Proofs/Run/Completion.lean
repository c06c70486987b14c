import Questionnaire.Proofs.Run.Dispatch

/-!
The end of a dispatched run. Each step leaves less to do (`Dispatch.step_decreases`), so a run comes
to its end in whatever order its steps are (`Dispatch.Sound.ends`). There it is an interleaving of
its files (`Dispatch.Complete.interleaves`), and a run that works on the file that has been open
longest is a dispatched one (`runFiles_dispatched`).
-/
namespace Questionnaire
open Files RunState

namespace FileTask

/-- The work on pages: each is numbered, and each of its records is written. -/
def work (ps : List Page) : Nat := (ps.map fun p => p.records.length + 1).sum

/-- What is left to do with a file that has been read. -/
def todo (f : FileTask) : Nat :=
  work (f.pages.drop f.numbered.length) + (f.records.length - f.writes.length)

theorem todo_number {f : FileTask} {p : Page} (next : f.pages[f.numbered.length]? = some p)
    (context : PageContext) :
    ({ f with numbered := f.numbered ++ [context] } : FileTask).todo < f.todo := by
  obtain ⟨within, there⟩ := List.getElem?_eq_some_iff.mp next
  have left : work (f.pages.drop f.numbered.length) =
      p.records.length + 1 + work (f.pages.drop (f.numbered.length + 1)) := by
    rw [List.drop_eq_getElem_cons within, there]
    rfl
  rw [todo, todo, records_number next, left, List.length_append, List.length_append]
  change work (f.pages.drop (f.numbered.length + 1)) + _ < _
  simp only
  omega

theorem todo_write {f : FileTask} {r : Record} (next : f.records[f.writes.length]? = some r)
    (w : Except Error String) :
    ({ f with writes := f.writes ++ [w] } : FileTask).todo < f.todo := by
  obtain ⟨within, _⟩ := List.getElem?_eq_some_iff.mp next
  rw [todo, todo, List.length_append, List.length_singleton]
  apply Nat.add_lt_add_left
  change f.records.length - (f.writes.length + 1) < f.records.length - f.writes.length
  omega

end FileTask

namespace Dispatch

/-- The files that have not been read; those that have no task yet count twice. -/
def unread (d : Dispatch) : Nat := 2 * d.waiting.length + d.tasks.countP (·.file.read.isNone)

/-- What is left to do with the other files. -/
def todo (d : Dispatch) : Nat :=
  (d.tasks.map (·.file.todo)).sum + d.unended + (d.tasks.length - d.awaited)

theorem todo_lt {t t' : Tree} {n n' free a : Nat} {waiting : List String} {before after : List Task}
    {f f' : FileTask} {s : Stats} (less : f'.todo < f.todo) :
    todo ⟨t', n', free, waiting, before ++ { file := f' } :: after, a, s⟩ <
      todo ⟨t, n, free, waiting, before ++ { file := f } :: after, a, s⟩ := by
  simp only [todo, unended, List.map_append, List.map_cons, List.sum_append, List.sum_cons,
    List.countP_append, List.countP_cons, List.length_append, List.length_cons]
  omega

/-- Each step leaves fewer files to read, or less to do with the others. What is to be done with a
file is known only when it has been read, so reading comes first. -/
theorem step_decreases {root : String} {d d' : Dispatch} (step : Step root d d') :
    d'.unread < d.unread ∨ (d'.unread = d.unread ∧ d'.todo < d.todo) := by
  rcases step with main | work
  · cases main with
    | spawn =>
      left
      simp only [unread, List.countP_append, List.countP_singleton, List.length_cons]
      split <;> omega
    | merge next ended =>
      obtain ⟨within, _⟩ := List.getElem?_eq_some_iff.mp next
      right
      constructor
      · rfl
      · simp only [todo, unended]
        omega
  · cases work with
    | act step =>
      rcases step.alone with ⟨unread, ⟨⟩⟩ | ⟨p, next, ⟨⟩⟩ | ⟨r, next, ⟨⟩⟩
      · left
        simp only [Dispatch.unread, List.countP_append, List.countP_cons, unread,
          Option.isNone_none, Option.isNone_some, Bool.false_eq_true, if_true, if_false]
        omega
      · right
        constructor
        · simp only [Dispatch.unread, List.countP_append, List.countP_cons]
        · exact todo_lt (FileTask.todo_number next _)
      · right
        constructor
        · simp only [Dispatch.unread, List.countP_append, List.countP_cons]
        · exact todo_lt (FileTask.todo_write next _)
    | finish finished =>
      right
      constructor
      · simp only [unread, List.countP_append, List.countP_cons]
      · simp only [todo, unended, List.map_append, List.map_cons, List.countP_append,
          List.countP_cons, List.length_append, List.length_cons, Bool.not_false, Bool.not_true,
          Bool.false_eq_true, if_true, if_false]
        omega

/-- No sequence of steps goes on for ever. -/
theorem step_wellFounded (root : String) : WellFounded fun d' d => Step root d d' := by
  have order := (Prod.lex Nat.lt_wfRel Nat.lt_wfRel).wf
  refine Subrelation.wf (fun {d' d} step => ?_) (InvImage.wf (fun d => (d.unread, d.todo)) order)
  rcases step_decreases step with less | ⟨same, less⟩
  · exact .left _ _ less
  · simp only [InvImage, same]
    exact .right _ less

theorem no_endless_run (root : String) (run : Nat → Dispatch) :
    ∃ i, ¬ Step root (run i) (run (i + 1)) := by
  generalize first : run 0 = d
  induction d using (step_wellFounded root).induction generalizing run with
  | _ d ih =>
    by_cases step : Step root (run 0) (run 1)
    · obtain ⟨i, last⟩ := ih (run 1) (first ▸ step) (fun i => run (i + 1)) rfl
      exact ⟨i + 1, last⟩
    · exact ⟨0, step⟩

/-- From wherever a run has come, it can come to its end. -/
theorem Sound.ends {k : Nat} {files : List String} {d : Dispatch} (h : Sound k files d)
    (some : 1 ≤ k) (root : String) : ∃ e, Steps root d e ∧ e.awaited = files.length := by
  induction d using (step_wellFounded root).induction with
  | _ d ih =>
    by_cases stuck : ∃ d', Step root d d'
    · obtain ⟨d', step⟩ := stuck
      obtain ⟨e, steps, all⟩ := ih d' step (h.step step)
      exact ⟨e, .head step steps, all⟩
    · exact ⟨d, .refl, (h.stuck_iff some root).mp stuck⟩

/-- The files of a run, whether they have tasks or not. -/
def state (d : Dispatch) : RunState :=
  ⟨d.tree, d.pages, d.tasks.map (·.file) ++ d.waiting.map FileTask.unread⟩

theorem Step.state {root : String} {d d' : Dispatch} (step : Step root d d') :
    RunState.Steps root d.state d'.state := by
  rcases step with main | work
  · cases main with
    | spawn =>
      simp only [Dispatch.state, List.map_append, List.append_assoc]
      exact .refl
    | merge => exact .refl
  · cases work with
    | @act t t' n n' free a waiting before after f f' s step =>
      simp only [Dispatch.state, List.map_append, List.map_cons, List.append_assoc,
        List.cons_append]
      exact .single (step.among _ _)
    | finish finished =>
      simp only [Dispatch.state, List.map_append, List.map_cons]
      exact .refl

theorem Steps.state {root : String} {d d' : Dispatch} (steps : Steps root d d') :
    RunState.Steps root d.state d'.state := by
  induction steps with
  | refl => exact .refl
  | tail _ step ih => exact ih.trans (Step.state step)

/-- A run that has come to its end is an interleaving of its files. -/
theorem Complete.interleaves {root : String} {k : Nat} {t : Tree} {files : List String}
    {d : Dispatch} (h : Complete k files d) (steps : Steps root (start k t files) d) :
    Interleaves root t files d.state ∧ d.state.stats = d.total := by
  have states : d.state.files = d.tasks.map (·.file) := by
    rw [state, h.waiting, List.map_nil, List.append_nil]
  constructor
  · constructor
    · exact Steps.state steps
    · rw [states]
      intro f member
      obtain ⟨task, there, rfl⟩ := List.mem_map.mp member
      exact (h.finished task there).2
  · rw [RunState.stats, states, List.foldl_map, h.total]
    rfl

end Dispatch

/-- A task with a file that has been read. -/
def Task.opened (o : OpenFile) : Task := { file := .opened o }

/-- Tasks that have ended, with the counts of a run so far. -/
structure Counted (p : Progress) (done : List Task) : Prop where
  ended : ∀ task ∈ done, task.ended
  stats : p.stats = Task.stats done

/-- A run in turns with its tasks, none of them awaited yet. -/
def Underway.dispatch (u : Underway) (free : Nat) (done : List Task) : Dispatch :=
  ⟨u.progress.tree, u.progress.pages, free, u.waiting, done ++ u.opened.map Task.opened, 0, {}⟩

section Runs
variable {root : String} {t : Tree} {n free a : Nat} {waiting : List String}
  {before after : List Task} {s : Stats}

/-- What is done with a file on its own can be done by its task. -/
theorem acts {f : FileTask} {r : RunState} (steps : RunState.Steps root ⟨t, n, [f]⟩ r) :
    ∃ f', r.files = [f'] ∧ Dispatch.Steps root
      ⟨t, n, free, waiting, before ++ { file := f } :: after, a, s⟩
      ⟨r.tree, r.pages, free, waiting, before ++ { file := f' } :: after, a, s⟩ := by
  induction steps with
  | refl => exact ⟨f, rfl, .refl⟩
  | @tail r r' _ step ih =>
    obtain ⟨f', one, steps⟩ := ih
    obtain ⟨t', n', files⟩ := r
    obtain rfl : files = [f'] := one
    obtain ⟨t'', n'', f'', rfl⟩ := step.one_file
    exact ⟨f'', rfl, steps.tail (.inr (.act step))⟩

/-- The dispatcher gives a file to a task, and the task reads it. -/
theorem dispatch_read (p : Progress) (opened : List OpenFile) (path : String)
    (paths : List String) (done : List Task) :
    Dispatch.Steps root (Underway.dispatch ⟨p, opened, path :: paths⟩ (free + 1) done)
      (Underway.dispatch ⟨p, opened ++ [p.read path], paths⟩ free done) := by
  simp only [Underway.dispatch, List.map_append, List.map_singleton, ← List.append_assoc]
  refine .head (.inl .spawn) (.single (.inr (.act ?_)))
  exact @RunState.Step.read root p.tree p.pages [] [] _ rfl

/-- The first task that has not ended works on its file without a break and ends. -/
theorem dispatch_finish (verbose : Bool) {p : Progress} {done : List Task}
    (counted : Counted p done) (o : OpenFile) (opened : List OpenFile) (paths : List String) :
    let q := p.finish root verbose o
    ∃ task, Counted q (done ++ [task]) ∧
      Dispatch.Steps root (Underway.dispatch ⟨p, o :: opened, paths⟩ free done)
        (Underway.dispatch ⟨q, opened, paths⟩ (free + 1) (done ++ [task])) := by
  intro q
  obtain ⟨f, worked⟩ := Worked.finish verbose o
  obtain ⟨f', one, steps⟩ := acts (worked.steps [] [])
  obtain rfl := List.singleton_inj.mp one
  refine ⟨{ file := f, ended := true }, ⟨?_, ?_⟩, ?_⟩
  · exact List.forall_mem_append.mpr ⟨counted.ended, List.forall_mem_singleton.mpr rfl⟩
  · rw [Task.stats_concat, ← counted.stats]
    exact worked.stats
  · simp only [Underway.dispatch, List.append_assoc]
    exact steps.tail (.inr (.finish (worked.finished f (List.mem_singleton_self f))))

/-- A turn at the first file that waits, or the first that is open, can be taken by the dispatcher
and the task of the file. -/
theorem dispatch_turn {c : Config} {u v : Underway} {x : Turn} {done : List Task}
    (first : x = .read 0 ∨ x = .finish 0) (taken : u.turn c x = some v)
    (counted : Counted u.progress done) (permits : free + u.opened.length = c.maxConcurrentFiles) :
    ∃ free' done', Counted v.progress done' ∧
      free' + v.opened.length = c.maxConcurrentFiles ∧
      Dispatch.Steps c.outputRoot (u.dispatch free done) (v.dispatch free' done') := by
  obtain ⟨allowed, taken⟩ := Underway.turn_eq_some.mp taken
  obtain ⟨p, opened, waiting⟩ := u
  rcases first with rfl | rfl
  · obtain ⟨path, there, rfl⟩ := Option.map_eq_some_iff.mp taken
    cases waiting with
    | nil => cases there
    | cons path' paths =>
      obtain rfl : path' = path := Option.some.inj there
      -- Room for one more open file is a permit that no task holds.
      have room : opened.length < c.maxConcurrentFiles := of_decide_eq_true allowed
      cases free with
      | zero =>
        rw [Nat.zero_add] at permits
        exact absurd permits (Nat.ne_of_lt room)
      | succ free =>
        refine ⟨free, done, counted, ?_, dispatch_read p opened path' paths done⟩
        rw [List.length_append, List.length_singleton, ← permits]
        exact (Nat.succ_add_eq_add_succ free opened.length).symm
  · obtain ⟨o, there, rfl⟩ := Option.map_eq_some_iff.mp taken
    cases opened with
    | nil => cases there
    | cons o' opened =>
      obtain rfl : o' = o := Option.some.inj there
      obtain ⟨task, counted, steps⟩ := dispatch_finish c.verboseLogging counted o' opened waiting
      refine ⟨free + 1, done ++ [task], counted, ?_, steps⟩
      simp only [List.length_cons, List.eraseIdx_cons_zero] at permits ⊢
      omega

theorem dispatch_turns {c : Config} {u v : Underway} {xs : List Turn} {done : List Task}
    (first : ∀ x ∈ xs, x = .read 0 ∨ x = .finish 0) (taken : u.turns c xs = some v)
    (counted : Counted u.progress done) (permits : free + u.opened.length = c.maxConcurrentFiles) :
    ∃ free' done', Counted v.progress done' ∧
      free' + v.opened.length = c.maxConcurrentFiles ∧
      Dispatch.Steps c.outputRoot (u.dispatch free done) (v.dispatch free' done') := by
  induction xs generalizing u free done with
  | nil =>
    cases taken
    exact ⟨free, done, counted, permits, .refl⟩
  | cons x xs ih =>
    obtain ⟨w, turn, rest⟩ := Underway.turns_cons.mp taken
    obtain ⟨_, _, counted, permits, toward⟩ :=
      dispatch_turn (first x List.mem_cons_self) turn counted permits
    obtain ⟨free', done', counted, permits, onward⟩ :=
      ih (fun y later => first y (List.mem_cons_of_mem x later)) rest counted permits
    exact ⟨free', done', counted, permits, toward.trans onward⟩

/-- The tasks are awaited one after another. -/
theorem dispatch_merge (tasks awaited : List Task) (ended : ∀ task ∈ tasks, task.ended) :
    Dispatch.Steps root
      ⟨t, n, free, [], awaited ++ tasks, awaited.length, Task.stats awaited⟩
      ⟨t, n, free, [], awaited ++ tasks, (awaited ++ tasks).length,
        Task.stats (awaited ++ tasks)⟩ := by
  induction tasks generalizing awaited with
  | nil =>
    rw [List.append_nil]
  | cons task tasks ih =>
    have next : (awaited ++ task :: tasks)[awaited.length]? = some task := by simp
    have others := ih (awaited ++ [task]) fun other member =>
      ended other (List.mem_cons_of_mem task member)
    rw [List.append_assoc, List.length_append, Task.stats_concat] at others
    exact .head (.inl (.merge next (ended task List.mem_cons_self))) others

end Runs

theorem first_of_mem_inOrder {limit files : Nat} {x : Turn} (h : x ∈ Turn.inOrder limit files) :
    x = .read 0 ∨ x = .finish 0 := by
  simp only [Turn.inOrder, List.mem_append, List.mem_flatten, List.mem_replicate] at h
  rcases h with ⟨_, rfl⟩ | ⟨xs, ⟨_, rfl⟩, turn⟩ | ⟨_, rfl⟩
  · exact .inl rfl
  · simpa [or_comm] using turn
  · exact .inr rfl

/-- The run that works on the file that has been open longest is one of the dispatcher and its
tasks. -/
theorem runFiles_dispatched (c : Config) (t : Tree) (files : List String)
    (limited : 1 ≤ c.maxConcurrentFiles) :
    let p := runFiles c.outputRoot c.verboseLogging c.maxConcurrentFiles { tree := t } files
    ∃ tasks, Dispatch.Steps c.outputRoot (.start c.maxConcurrentFiles t files)
      ⟨p.tree, p.pages, c.maxConcurrentFiles, [], tasks, files.length, p.stats⟩ := by
  intro p
  have none : Counted { tree := t } [] := ⟨fun _ h => absurd h List.not_mem_nil, rfl⟩
  obtain ⟨free, done, counted, permits, steps⟩ :=
    dispatch_turns (fun _ => first_of_mem_inOrder) (turns_inOrder c t files limited) none
      (Nat.add_zero c.maxConcurrentFiles)
  obtain rfl : free = c.maxConcurrentFiles := permits
  simp only [Underway.dispatch, List.map_nil, List.append_nil] at steps
  have length : done.length = files.length := ((Dispatch.Sound.start _ t files).steps steps).length
  have awaits : Dispatch.Steps c.outputRoot ⟨p.tree, p.pages, c.maxConcurrentFiles, [], done, 0, {}⟩
      ⟨p.tree, p.pages, c.maxConcurrentFiles, [], done, done.length, Task.stats done⟩ :=
    dispatch_merge done [] counted.ended
  rw [length, ← counted.stats] at awaits
  exact ⟨done, steps.trans awaits⟩

/-- The dispatcher keeps to the permits that the settings give it, even if these ask for none, and
is never held up for good. Each file is given to one task and counted once, and when nothing can be
done any more, all files have been counted. -/
theorem dispatch_completes (c : Config) (t : Tree) (files : List String) (k : Nat)
    (made : c.permits? = some k) :
    k = max c.maxConcurrentFiles 1 ∧
    (∀ d, Dispatch.Steps c.outputRoot (.start k t files) d →
      (Dispatch.Sound k files d ∧ d.unended ≤ k) ∧
      ((¬ ∃ d', Dispatch.Main d d') → d.awaited ≠ files.length →
        ∃ d', Dispatch.Work c.outputRoot d d') ∧
      (∀ e, Dispatch.Steps c.outputRoot d e → ∀ (i : Nat) (task : Task), d.tasks[i]? = some task →
        task.ended → e.tasks[i]? = some task) ∧
      ((¬ ∃ d', Dispatch.Step c.outputRoot d d') ↔ d.awaited = files.length) ∧
      (d.awaited = files.length → Dispatch.Complete k files d ∧
        Interleaves c.outputRoot t files d.state ∧ d.state.stats = d.total) ∧
      ∃ e, Dispatch.Steps c.outputRoot d e ∧ e.awaited = files.length) ∧
    (∀ states : Nat → Dispatch,
      ∃ i, ¬ Dispatch.Step c.outputRoot (states i) (states (i + 1))) ∧
    (t.walk c.inputRoot = .ok files → files ≠ [] →
      ∃ d, Dispatch.Steps c.outputRoot (.start k t files) d ∧ d.awaited = files.length ∧
        (run c t).tree = d.tree ∧ (run c t).result = verdict c d.total) := by
  have some : 1 ≤ k := one_le_permits made
  refine ⟨(permits?_eq_some.mp made).1, ?_, Dispatch.no_endless_run c.outputRoot, ?_⟩
  · intro d steps
    have sound := (Dispatch.Sound.start k t files).steps steps
    refine ⟨⟨sound, sound.unended_le⟩, ?_, ?_, sound.stuck_iff some _, ?_, sound.ends some _⟩
    · exact fun stuck more => sound.progress some stuck more c.outputRoot
    · exact fun e onward i task there ended => Dispatch.Steps.kept onward there ended
    · intro all
      have complete := sound.complete all
      exact ⟨complete, complete.interleaves steps⟩
  · intro walked work
    obtain ⟨tasks, steps⟩ := runFiles_dispatched c.normalized t files c.one_le_normalized
    have same := (permits?_eq_some.mp made).1
    rw [run_worked work walked made]
    subst same
    exact ⟨_, steps, rfl, rfl, rfl⟩

/-- Two files with one question each. -/
private def twoTasksTree : Tree where
  root := .dir [("work", .dir
    [("service", .dir [("a.yml", .file "P:\n  A?:\n    key: a\n".toUTF8),
        ("b.yml", .file "P:\n  B?:\n    key: b\n".toUTF8)]),
      ("g6", .dir [])])]
  cwd := ["work"]

/-- A limit of no files at a time counts as one. -/
theorem dispatch_completes_zero :
    let c : Config := { maxConcurrentFiles := 0 }
    let files := ["service/a.yml", "service/b.yml"]
    c.permits? = some 1 ∧
      (∀ d, Dispatch.Steps "g6" (.start 1 twoTasksTree files) d → d.unended ≤ 1 ∧
        ∃ e, Dispatch.Steps "g6" d e ∧ e.awaited = 2) ∧
      ∃ d, Dispatch.Steps "g6" (.start 1 twoTasksTree files) d ∧
        Dispatch.Complete 1 files d ∧ d.total = ⟨2, 0, 2, 2, 0, 0⟩ ∧
        d.tree.readText "g6/b.yml" = .ok "question: B?\n" := by
  intro c files
  have made : c.permits? = some 1 := by decide +kernel
  have walked : twoTasksTree.walk c.inputRoot = .ok files := by decide +kernel
  obtain ⟨_, holds, _, runs⟩ := dispatch_completes c twoTasksTree files 1 made
  obtain ⟨d, steps, all, tree, result⟩ := runs walked (List.cons_ne_nil _ _)
  refine ⟨made, fun d steps => ?_, d, steps, ?_, ?_, ?_⟩
  · obtain ⟨⟨_, bound⟩, _, _, _, _, ends⟩ := holds d steps
    exact ⟨bound, ends⟩
  · obtain ⟨_, _, _, _, complete, _⟩ := holds d steps
    exact (complete all).1
  · have counts : (run c twoTasksTree).result.toOption = some ⟨2, 0, 2, 2, 0, 0⟩ := by
      decide +kernel
    rw [result] at counts
    exact Option.some.inj counts
  · rw [← tree]
    decide +kernel

end Questionnaire
