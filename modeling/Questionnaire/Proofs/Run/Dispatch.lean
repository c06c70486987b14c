import Questionnaire.Proofs.Run.Independence
import Questionnaire.Proofs.Run.Permits

/-!
The dispatcher of a run. It takes a permit for each file before it gives the file to a task; the
task holds the permit as long as it runs. When all files have their tasks, the dispatcher waits for
the tasks in the order of the files and adds up their counts. Its steps and those of the tasks come
in any order.

What holds at any time is one invariant (`Sound`), kept by each step (`Sound.step`). From it follows
that the dispatcher is only ever held up by a task that can go on (`Sound.progress`), and that
nothing can be done exactly if the counts of all files have been added up (`Sound.stuck_iff`).
-/
namespace Questionnaire
open Files RunState

/-- A file that has been given to a task. -/
structure Task where
  file : FileTask
  ended : Bool := false

/-- A run between two steps of the dispatcher and the tasks. -/
structure Dispatch where
  tree : Tree
  /-- The number of pages so far. -/
  pages : Nat
  /-- The permits that no task holds. -/
  free : Nat
  /-- The files that have no task yet. -/
  waiting : List String
  tasks : List Task
  /-- The number of tasks that have been awaited. -/
  awaited : Nat
  /-- The counts of these tasks. -/
  total : Stats

namespace Dispatch

/-- A step of the dispatcher: a permit is taken and a task begins, or the next task is awaited. -/
inductive Main : Dispatch → Dispatch → Prop
  | spawn {t : Tree} {n free a : Nat} {path : String} {paths : List String} {tasks : List Task}
      {s : Stats} :
      Main ⟨t, n, free + 1, path :: paths, tasks, a, s⟩
        ⟨t, n, free, paths, tasks ++ [{ file := .unread path }], a, s⟩
  | merge {t : Tree} {n free a : Nat} {tasks : List Task} {task : Task} {s : Stats} :
      tasks[a]? = some task → task.ended →
      Main ⟨t, n, free, [], tasks, a, s⟩ ⟨t, n, free, [], tasks, a + 1, s.merge task.file.stats⟩

/-- A step of a task: it goes on with its file, or it ends and gives its permit back. -/
inductive Work (root : String) : Dispatch → Dispatch → Prop
  | act {t t' : Tree} {n n' free a : Nat} {waiting : List String} {before after : List Task}
      {f f' : FileTask} {s : Stats} :
      RunState.Step root ⟨t, n, [f]⟩ ⟨t', n', [f']⟩ →
      Work root ⟨t, n, free, waiting, before ++ { file := f } :: after, a, s⟩
        ⟨t', n', free, waiting, before ++ { file := f' } :: after, a, s⟩
  | finish {t : Tree} {n free a : Nat} {waiting : List String} {before after : List Task}
      {f : FileTask} {s : Stats} :
      f.Finished →
      Work root ⟨t, n, free, waiting, before ++ { file := f } :: after, a, s⟩
        ⟨t, n, free + 1, waiting, before ++ { file := f, ended := true } :: after, a, s⟩

def Step (root : String) (d d' : Dispatch) : Prop := Main d d' ∨ Work root d d'

/-- Any number of steps. -/
abbrev Steps (root : String) : Dispatch → Dispatch → Prop := Relation.ReflTransGen (Step root)

/-- The state in which `k` permits have been made. -/
def start (k : Nat) (t : Tree) (files : List String) : Dispatch := ⟨t, 0, k, files, [], 0, {}⟩

/-- The number of tasks that have not ended. -/
def unended (d : Dispatch) : Nat := d.tasks.countP (!·.ended)

end Dispatch

/-- The counts of tasks together. -/
def Task.stats (tasks : List Task) : Stats :=
  tasks.foldl (fun total task => total.merge task.file.stats) {}

section Alone
variable {root : String} {t t' : Tree} {n n' : Nat} {f f' : FileTask}

theorem append_cons_eq_singleton {α : Type} {before after : List α} {x y : α}
    (h : before ++ x :: after = [y]) : before = [] ∧ x = y ∧ after = [] := by
  cases before with
  | nil =>
    obtain ⟨rfl, rfl⟩ := List.cons.inj h
    exact ⟨rfl, rfl, rfl⟩
  | cons z before => simp at h

/-- The actions of a file that is on its own. -/
theorem RunState.Step.alone {s : RunState} (step : RunState.Step root ⟨t, n, [f]⟩ s) :
    (f.read = none ∧ s = ⟨t, n, [{ f with read := some (Definition.load t f.path) }]⟩) ∨
    (∃ p, f.pages[f.numbered.length]? = some p ∧
      s = ⟨t, n + 1, [{ f with numbered := f.numbered ++ [⟨n + 1, p.name, f.path⟩] }]⟩) ∨
    ∃ r, f.records[f.writes.length]? = some r ∧
      s = ⟨(r.attempt root t).2, n, [{ f with writes := f.writes ++ [(r.attempt root t).1] }]⟩ := by
  generalize here : (⟨t, n, [f]⟩ : RunState) = first at step
  cases step with
  | read unread =>
    obtain ⟨rfl, rfl, one⟩ := RunState.mk.inj here
    obtain ⟨rfl, rfl, rfl⟩ := append_cons_eq_singleton one.symm
    exact .inl ⟨unread, rfl⟩
  | number next =>
    obtain ⟨rfl, rfl, one⟩ := RunState.mk.inj here
    obtain ⟨rfl, rfl, rfl⟩ := append_cons_eq_singleton one.symm
    exact .inr (.inl ⟨_, next, rfl⟩)
  | write next =>
    obtain ⟨rfl, rfl, one⟩ := RunState.mk.inj here
    obtain ⟨rfl, rfl, rfl⟩ := append_cons_eq_singleton one.symm
    exact .inr (.inr ⟨_, next, rfl⟩)

theorem RunState.Step.one_file {s : RunState} (step : RunState.Step root ⟨t, n, [f]⟩ s) :
    ∃ t' n' f', s = ⟨t', n', [f']⟩ := by
  rcases step.alone with ⟨_, rfl⟩ | ⟨_, _, rfl⟩ | ⟨_, _, rfl⟩
  all_goals exact ⟨_, _, _, rfl⟩

/-- What is done on its own can be done among other files. -/
theorem RunState.Step.among (step : RunState.Step root ⟨t, n, [f]⟩ ⟨t', n', [f']⟩)
    (before after : List FileTask) :
    RunState.Step root ⟨t, n, before ++ f :: after⟩ ⟨t', n', before ++ f' :: after⟩ := by
  rcases step.alone with ⟨unread, ⟨⟩⟩ | ⟨p, next, ⟨⟩⟩ | ⟨r, next, ⟨⟩⟩
  · exact .read unread
  · exact .number next
  · exact .write next

theorem RunState.Step.path (step : RunState.Step root ⟨t, n, [f]⟩ ⟨t', n', [f']⟩) :
    f'.path = f.path := by
  rcases step.alone with ⟨_, ⟨⟩⟩ | ⟨_, _, ⟨⟩⟩ | ⟨_, _, ⟨⟩⟩
  all_goals rfl

end Alone

namespace FileTask
variable {root : String} {t t' : Tree} {n n' : Nat} {f f' : FileTask}

theorem pages_unread (unread : f.read = none) : f.pages = [] := by
  rw [pages, unread]

theorem records_number {p : Page} (next : f.pages[f.numbered.length]? = some p)
    (context : PageContext) :
    ({ f with numbered := f.numbered ++ [context] } : FileTask).records =
      f.records ++ p.records := by
  rw [records_eq, records_eq]
  change (f.pages.take (f.numbered ++ [context]).length).flatMap Page.records = _
  rw [List.length_append, List.length_singleton, List.take_add_one, next, List.flatMap_append]
  simp

/-- No more pages are numbered than there are, and no more records written. -/
structure InBounds (f : FileTask) : Prop where
  numbered : f.numbered.length ≤ f.pages.length
  written : f.writes.length ≤ f.records.length

theorem InBounds.unread (path : String) : (FileTask.unread path).InBounds :=
  ⟨Nat.le_refl 0, Nat.le_refl 0⟩

theorem InBounds.step (h : f.InBounds) (step : RunState.Step root ⟨t, n, [f]⟩ ⟨t', n', [f']⟩) :
    f'.InBounds := by
  rcases step.alone with ⟨unread, ⟨⟩⟩ | ⟨p, next, ⟨⟩⟩ | ⟨r, next, ⟨⟩⟩
  · have none : f.pages = [] := pages_unread unread
    have unnumbered : f.numbered = [] := by
      have bound := h.numbered
      rw [none] at bound
      exact List.eq_nil_of_length_eq_zero (Nat.le_zero.mp bound)
    have unwritten : f.writes = [] := by
      have bound := h.written
      rw [records_eq, unnumbered] at bound
      exact List.eq_nil_of_length_eq_zero (Nat.le_zero.mp bound)
    constructor
    · simp only [unnumbered, List.length_nil, Nat.zero_le]
    · simp only [unwritten, List.length_nil, Nat.zero_le]
  · obtain ⟨within, _⟩ := List.getElem?_eq_some_iff.mp next
    constructor
    · rw [List.length_append, List.length_singleton]
      exact within
    · rw [records_number next, List.length_append]
      exact Nat.le_add_right_of_le h.written
  · obtain ⟨within, _⟩ := List.getElem?_eq_some_iff.mp next
    constructor
    · exact h.numbered
    · rw [List.length_append, List.length_singleton]
      exact within

/-- A file that is not done with can be gone on with. -/
theorem InBounds.next (h : f.InBounds) (unfinished : ¬ f.Finished) (root : String) (t : Tree)
    (n : Nat) : ∃ t' n' f', RunState.Step root ⟨t, n, [f]⟩ ⟨t', n', [f']⟩ := by
  by_cases unread : f.read = none
  · exact ⟨_, _, _, @Step.read root t n [] [] f unread⟩
  · by_cases numbers : f.numbered.length < f.pages.length
    · exact ⟨_, _, _, @Step.number root t n [] [] f _ (List.getElem?_eq_getElem numbers)⟩
    · by_cases writes : f.writes.length < f.records.length
      · exact ⟨_, _, _, @Step.write root t n [] [] f _ (List.getElem?_eq_getElem writes)⟩
      · exfalso
        apply unfinished
        have numbered := h.numbered
        have written := h.written
        exact ⟨unread, by omega, by omega⟩

end FileTask

namespace Dispatch
variable {root : String} {d d' : Dispatch} {task : Task} {i : Nat}

theorem getElem?_replace {before after : List Task} {x : Task} (y : Task)
    (running : x.ended = false) (there : (before ++ x :: after)[i]? = some task)
    (ended : task.ended) : (before ++ y :: after)[i]? = some task := by
  rw [List.getElem?_append] at there ⊢
  split at there
  · rename_i front
    rw [if_pos front]
    exact there
  · rename_i back
    rw [if_neg back]
    cases place : i - before.length with
    | zero =>
      rw [place] at there
      obtain rfl : x = task := Option.some.inj there
      rw [running] at ended
      cases ended
    | succ j =>
      rw [place] at there
      exact there

/-- A task that has ended stays as it is. -/
theorem Step.kept (step : Step root d d') (there : d.tasks[i]? = some task) (ended : task.ended) :
    d'.tasks[i]? = some task := by
  rcases step with main | work
  · cases main with
    | spawn =>
      obtain ⟨within, _⟩ := List.getElem?_eq_some_iff.mp there
      exact (List.getElem?_append_left within).trans there
    | merge => exact there
  · cases work with
    | act => exact getElem?_replace _ rfl there ended
    | finish => exact getElem?_replace _ rfl there ended

theorem Steps.kept (steps : Steps root d d') (there : d.tasks[i]? = some task)
    (ended : task.ended) : d'.tasks[i]? = some task := by
  induction steps with
  | refl => exact there
  | tail _ step ih => exact Step.kept step ih ended

end Dispatch

theorem Task.stats_concat (tasks : List Task) (task : Task) :
    Task.stats (tasks ++ [task]) = (Task.stats tasks).merge task.file.stats := by
  rw [Task.stats, List.foldl_append]
  rfl

namespace Dispatch

/-- What holds at any time of a run of `files` with `k` permits. -/
structure Sound (k : Nat) (files : List String) (d : Dispatch) : Prop where
  /-- Each permit is free or held by one task. -/
  permits : d.free + d.unended = k
  /-- Each file has one task or waits for it. -/
  given : d.tasks.map (·.file.path) ++ d.waiting = files
  inBounds : ∀ task ∈ d.tasks, task.file.InBounds
  finished : ∀ task ∈ d.tasks, task.ended → task.file.Finished
  /-- The tasks are awaited in their order, and each of them once. -/
  awaited : d.awaited ≤ d.tasks.length
  ended : ∀ task ∈ d.tasks.take d.awaited, task.ended
  total : d.total = Task.stats (d.tasks.take d.awaited)

namespace Sound
variable {root : String} {k : Nat} {files : List String} {d d' : Dispatch}

theorem start (k : Nat) (t : Tree) (files : List String) :
    Sound k files (Dispatch.start k t files) := by
  constructor
  · rfl
  · rfl
  · exact fun task h => absurd h List.not_mem_nil
  · exact fun task h => absurd h List.not_mem_nil
  · exact Nat.le_refl 0
  · exact fun task h => absurd h List.not_mem_nil
  · rfl

theorem main (h : Sound k files d) (step : Main d d') : Sound k files d' := by
  cases step with
  | @spawn t n free a path paths tasks s =>
    let task : Task := { file := .unread path }
    have fresh : (tasks ++ [task]).take a = tasks.take a :=
      List.take_append_of_le_length h.awaited
    constructor
    · have permits : free + 1 + tasks.countP (!·.ended) = k := h.permits
      simp only [unended, List.countP_append, List.countP_singleton, Bool.not_false, if_true]
      omega
    · rw [List.map_append, List.append_assoc]
      exact h.given
    · exact List.forall_mem_append.mpr ⟨h.inBounds, List.forall_mem_singleton.mpr (.unread path)⟩
    · refine List.forall_mem_append.mpr ⟨h.finished, List.forall_mem_singleton.mpr fun ended => ?_⟩
      cases ended
    · rw [List.length_append]
      exact Nat.le_add_right_of_le h.awaited
    · exact fresh.symm ▸ h.ended
    · exact fresh.symm ▸ h.total
  | @merge t n free a tasks task s next ended =>
    have first : tasks.take (a + 1) = tasks.take a ++ [task] := by
      rw [List.take_add_one, next, Option.toList_some]
    constructor
    · exact h.permits
    · exact h.given
    · exact h.inBounds
    · exact h.finished
    · exact (List.getElem?_eq_some_iff.mp next).1
    · simp only [first]
      exact List.forall_mem_append.mpr ⟨h.ended, List.forall_mem_singleton.mpr ended⟩
    · simp only [first, Task.stats_concat, ← h.total]

section Replace
variable {t t' : Tree} {n n' free free' a : Nat} {waiting : List String} {before after : List Task}
  {x y : Task} {s : Stats}

/-- A task that has not ended has not been awaited. -/
theorem awaited_le (h : Sound k files ⟨t, n, free, waiting, before ++ x :: after, a, s⟩)
    (running : x.ended = false) : a ≤ before.length := by
  by_contra later
  have taken : x ∈ (before ++ x :: after).take a := by
    obtain ⟨m, rfl⟩ := Nat.exists_eq_add_of_lt (Nat.lt_of_not_le later)
    rw [List.take_append, Nat.add_assoc, Nat.add_sub_cancel_left, List.take_succ_cons]
    exact List.mem_append_cons_self
  have ended := h.ended x taken
  rw [running] at ended
  cases ended

/-- A task that has not ended may go on or end. -/
theorem replace (h : Sound k files ⟨t, n, free, waiting, before ++ x :: after, a, s⟩)
    (running : x.ended = false) (path : y.file.path = x.file.path) (inBounds : y.file.InBounds)
    (finished : y.ended → y.file.Finished)
    (permits : free' + [y].countP (!·.ended) = free + [x].countP (!·.ended)) :
    Sound k files ⟨t', n', free', waiting, before ++ y :: after, a, s⟩ := by
  have members : ∀ task ∈ before ++ y :: after, task = y ∨ task ∈ before ++ x :: after := by
    intro task member
    rcases List.mem_append.mp member with front | back
    · exact .inr (List.mem_append_left _ front)
    · rcases List.mem_cons.mp back with same | behind
      · exact .inl same
      · exact .inr (List.mem_append_right _ (List.mem_cons_of_mem x behind))
  have taken : (before ++ y :: after).take a = (before ++ x :: after).take a := by
    have behind := h.awaited_le running
    rw [List.take_append_of_le_length behind, List.take_append_of_le_length behind]
  constructor
  · have all : free + (before ++ x :: after).countP (!·.ended) = k := h.permits
    rw [← List.singleton_append, List.countP_append, List.countP_append] at all
    simp only [unended]
    rw [← List.singleton_append, List.countP_append, List.countP_append]
    omega
  · have given := h.given
    rw [List.map_append, List.map_cons, ← path] at given
    rw [List.map_append, List.map_cons]
    exact given
  · intro task member
    rcases members task member with rfl | old
    · exact inBounds
    · exact h.inBounds task old
  · intro task member ended
    rcases members task member with rfl | old
    · exact finished ended
    · exact h.finished task old ended
  · have bound := h.awaited
    rw [List.length_append, List.length_cons] at bound ⊢
    exact bound
  · exact taken.symm ▸ h.ended
  · exact taken.symm ▸ h.total

end Replace

theorem work (h : Sound k files d) (step : Work root d d') : Sound k files d' := by
  cases step with
  | @act t t' n n' free a waiting before after f f' s step =>
    have inBounds : f.InBounds := h.inBounds { file := f } List.mem_append_cons_self
    have running : ({ file := f' } : Task).ended ≠ true := Bool.false_ne_true
    exact h.replace rfl step.path (inBounds.step step) (fun ended => absurd ended running) rfl
  | @finish t n free a waiting before after f s finished =>
    have inBounds : f.InBounds := h.inBounds { file := f } List.mem_append_cons_self
    exact h.replace rfl rfl inBounds (fun _ => finished) rfl

theorem step (h : Sound k files d) (step : Step root d d') : Sound k files d' := by
  rcases step with main | work
  · exact h.main main
  · exact h.work work

theorem steps (h : Sound k files d) (steps : Steps root d d') : Sound k files d' := by
  induction steps with
  | refl => exact h
  | tail _ step ih => exact ih.step step

theorem length (h : Sound k files d) : d.tasks.length + d.waiting.length = files.length := by
  rw [← h.given, List.length_append, List.length_map]

theorem unended_le (h : Sound k files d) : d.unended ≤ k := by
  have permits := h.permits
  omega

/-- A task that has not ended can always go on or end. -/
theorem task_next (h : Sound k files d) {task : Task} (member : task ∈ d.tasks)
    (running : task.ended = false) (root : String) : ∃ d', Work root d d' := by
  obtain ⟨t, n, free, waiting, tasks, a, s⟩ := d
  obtain ⟨before, after, rfl⟩ := List.append_of_mem member
  obtain ⟨f, ended⟩ := task
  obtain rfl : ended = false := running
  by_cases finished : f.Finished
  · exact ⟨_, .finish finished⟩
  · obtain ⟨t', n', f', step⟩ := (h.inBounds _ member).next finished root t n
    exact ⟨_, .act step⟩

/-- The dispatcher is held up only by tasks that have not ended. -/
theorem held_up (h : Sound k files d) (some : 1 ≤ k) (stuck : ¬ ∃ d', Main d d')
    (more : d.awaited ≠ files.length) : ∃ task ∈ d.tasks, task.ended = false := by
  have length := h.length
  have awaited := h.awaited
  have permits := h.permits
  obtain ⟨t, n, free, waiting, tasks, a, s⟩ := d
  cases waiting with
  | cons path paths =>
    cases free with
    | succ free => exact absurd ⟨_, .spawn⟩ stuck
    | zero =>
      -- All permits are held, and there is at least one.
      have held : 0 < tasks.countP (!·.ended) := by
        simp only [unended] at permits
        omega
      obtain ⟨task, member, running⟩ := List.countP_pos_iff.mp held
      exact ⟨task, member, by simpa using running⟩
  | nil =>
    -- The task that is to be awaited next has not ended.
    have next : a < tasks.length := by
      simp only [List.length_nil] at length awaited more
      omega
    refine ⟨tasks[a], List.getElem_mem next, ?_⟩
    by_contra ended
    exact stuck ⟨_, .merge (List.getElem?_eq_getElem next) (Bool.of_not_eq_false ended)⟩

/-- When the dispatcher cannot move, a task can. -/
theorem progress (h : Sound k files d) (some : 1 ≤ k) (stuck : ¬ ∃ d', Main d d')
    (more : d.awaited ≠ files.length) (root : String) : ∃ d', Work root d d' := by
  obtain ⟨task, member, running⟩ := h.held_up some stuck more
  exact h.task_next member running root

end Sound

/-- The end of a run: all permits are free, and the counts of all files have been added up. -/
structure Complete (k : Nat) (files : List String) (d : Dispatch) : Prop where
  free : d.free = k
  waiting : d.waiting = []
  paths : d.tasks.map (·.file.path) = files
  finished : ∀ task ∈ d.tasks, task.ended ∧ task.file.Finished
  total : d.total = Task.stats d.tasks

namespace Sound
variable {root : String} {k : Nat} {files : List String} {d d' : Dispatch}

theorem complete (h : Sound k files d) (all : d.awaited = files.length) : Complete k files d := by
  have length := h.length
  have awaited := h.awaited
  have waiting : d.waiting = [] := List.eq_nil_of_length_eq_zero (by omega)
  have taken : d.tasks.take d.awaited = d.tasks := List.take_of_length_le (by omega)
  have ended : ∀ task ∈ d.tasks, task.ended := taken ▸ h.ended
  constructor
  · have none : d.unended = 0 := by
      rw [unended, List.countP_eq_zero]
      intro task member
      rw [ended task member]
      exact Bool.false_ne_true
    have permits := h.permits
    omega
  · exact waiting
  · have given := h.given
    rw [waiting, List.append_nil] at given
    exact given
  · exact fun task member => ⟨ended task member, h.finished task member (ended task member)⟩
  · rw [h.total, taken]

/-- Nothing can be done exactly if the counts of all files have been added up. -/
theorem stuck_iff (h : Sound k files d) (some : 1 ≤ k) (root : String) :
    (¬ ∃ d', Step root d d') ↔ d.awaited = files.length := by
  constructor
  · intro stuck
    by_contra more
    obtain ⟨d', work⟩ := h.progress some (fun ⟨d', main⟩ => stuck ⟨d', .inl main⟩) more root
    exact stuck ⟨d', .inr work⟩
  · rintro all ⟨d', main | work⟩
    · have length := h.length
      have awaited := h.awaited
      cases main with
      | spawn =>
        simp only [List.length_cons] at all length awaited
        omega
      | merge next _ =>
        obtain ⟨within, _⟩ := List.getElem?_eq_some_iff.mp next
        simp only [List.length_nil] at all length
        omega
    · have finished := (h.complete all).finished
      cases work with
      | @act _ _ _ _ _ _ _ _ _ f =>
        exact absurd (finished { file := f } List.mem_append_cons_self).1 Bool.false_ne_true
      | @finish _ _ _ _ _ _ _ f =>
        exact absurd (finished { file := f } List.mem_append_cons_self).1 Bool.false_ne_true

end Sound
end Dispatch
end Questionnaire
