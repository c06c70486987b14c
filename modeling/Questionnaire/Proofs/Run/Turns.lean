import Mathlib.Data.List.Perm.Basic
import Questionnaire.Proofs.Run.Interleaving

/-!
The order of a run. A run goes on in turns: a file is read, or a file that has been read is worked
on. The limit on open files says which turns may come next, never what a turn does; what is told
has no part in either. So two runs that take the same turns have the same tree and the same counts
at every moment (`Underway.Alike.turns`).

A run that works on the file that has been open longest takes the turns of `Turn.inOrder`
(`turns_inOrder`), and in whatever order the turns come the run is an interleaving of its files that
goes to the end of each of them (`interleaves_of_turns`).
-/
namespace Questionnaire
open Files RunState

theorem exists_split_of_getElem? {α : Type} {xs : List α} {i : Nat} {x : α}
    (h : xs[i]? = some x) : ∃ before after, before.length = i ∧ xs = before ++ x :: after ∧
      xs.eraseIdx i = before ++ after := by
  obtain ⟨lt, rfl⟩ := List.getElem?_eq_some_iff.mp h
  refine ⟨xs.take i, xs.drop (i + 1), ?_, ?_, List.eraseIdx_eq_take_drop_succ ..⟩
  · exact List.length_take_of_le (Nat.le_of_lt lt)
  · rw [← List.drop_eq_getElem_cons lt, List.take_append_drop]

theorem perm_replace {α : Type} {as bs cs ds cs' ds' : List α} {x : α} (y : α)
    (perm : (as ++ x :: bs).Perm (cs ++ x :: ds)) (others : cs ++ ds = cs' ++ ds') :
    (as ++ y :: bs).Perm (cs' ++ y :: ds') := by
  have rest : (as ++ bs).Perm (cs ++ ds) :=
    (List.perm_middle.symm.trans (perm.trans List.perm_middle)).cons_inv
  rw [others] at rest
  exact List.perm_middle.trans ((rest.cons y).trans List.perm_middle.symm)

/-- One of the files that wait is read, or one of the open files is worked on. -/
inductive Turn
  | read (i : Nat)
  | finish (i : Nat)
  deriving DecidableEq, Repr

/-- A run between two turns. -/
structure Underway where
  progress : Progress
  opened : List OpenFile
  waiting : List String

namespace Underway

/-- Files come in one after another, so there has to be room for those that wait before this one. -/
def allows (limit : Nat) (u : Underway) : Turn → Bool
  | .read i => u.opened.length + i < limit
  | .finish _ => true

/-- What a turn comes to, if there is a file for it. -/
def take (c : Config) (u : Underway) : Turn → Option Underway
  | .read i => u.waiting[i]?.map fun path =>
    ⟨u.progress, u.opened ++ [u.progress.read path], u.waiting.eraseIdx i⟩
  | .finish i => u.opened[i]?.map fun f =>
    ⟨u.progress.finish c.outputRoot c.verboseLogging f, u.opened.eraseIdx i, u.waiting⟩

def turn (c : Config) (u : Underway) (x : Turn) : Option Underway :=
  if u.allows c.maxConcurrentFiles x then u.take c x else none

/-- A number of turns, each of them allowed at its time. -/
def turns (c : Config) (u : Underway) (xs : List Turn) : Option Underway := xs.foldlM (turn c) u

/-- The state before anything has been read. -/
def start (t : Tree) (files : List String) : Underway := ⟨{ tree := t }, [], files⟩

theorem turn_eq_some {c : Config} {u v : Underway} {x : Turn} :
    u.turn c x = some v ↔ u.allows c.maxConcurrentFiles x ∧ u.take c x = some v :=
  Option.ite_none_right_eq_some

theorem turns_cons {c : Config} {u w : Underway} {x : Turn} {xs : List Turn} :
    u.turns c (x :: xs) = some w ↔ ∃ v, u.turn c x = some v ∧ v.turns c xs = some w :=
  Option.bind_eq_some_iff

theorem turns_append {c : Config} {u v w : Underway} {xs ys : List Turn}
    (first : u.turns c xs = some v) (second : v.turns c ys = some w) :
    u.turns c (xs ++ ys) = some w := by
  rw [turns, List.foldlM_append]
  exact Option.bind_eq_some_iff.mpr ⟨v, first, second⟩

/-- The same files in the same state; what has been told may differ. -/
structure Alike (u v : Underway) : Prop where
  tree : u.progress.tree = v.progress.tree
  pages : u.progress.pages = v.progress.pages
  stats : u.progress.stats = v.progress.stats
  opened : u.opened = v.opened
  waiting : u.waiting = v.waiting

namespace Alike
variable {c c' : Config} {u u' v v' : Underway} {x : Turn} {xs : List Turn}

theorem refl (u : Underway) : u.Alike u := ⟨rfl, rfl, rfl, rfl, rfl⟩

theorem finish (alike : u.Alike v) (output : c.outputRoot = c'.outputRoot) (f : OpenFile) :
    let p := u.progress.finish c.outputRoot c.verboseLogging f
    let q := v.progress.finish c'.outputRoot c'.verboseLogging f
    p.tree = q.tree ∧ p.pages = q.pages ∧ p.stats = q.stats := by
  obtain ⟨path, definition⟩ := f
  cases definition <;>
    simp only [Progress.finish, finishFile, alike.tree, alike.pages, alike.stats, output, and_self]

theorem allows (alike : u.Alike v) {m n : Nat} (le : m ≤ n) (h : u.allows m x) :
    v.allows n x := by
  cases x with
  | finish i => rfl
  | read i =>
    simp only [Underway.allows, decide_eq_true_eq, ← alike.opened] at h ⊢
    omega

theorem take (alike : u.Alike v) (output : c.outputRoot = c'.outputRoot)
    (h : u.take c x = some u') : ∃ v', v.take c' x = some v' ∧ u'.Alike v' := by
  cases x with
  | read i =>
    obtain ⟨path, there, rfl⟩ := Option.map_eq_some_iff.mp h
    rw [alike.waiting] at there
    refine ⟨_, Option.map_eq_some_iff.mpr ⟨path, there, rfl⟩, alike.tree, alike.pages,
      alike.stats, ?_, ?_⟩
    · simp only [alike.opened, Progress.read, alike.tree]
    · simp only [alike.waiting]
  | finish i =>
    obtain ⟨f, there, rfl⟩ := Option.map_eq_some_iff.mp h
    rw [alike.opened] at there
    obtain ⟨tree, pages, stats⟩ := alike.finish output f
    refine ⟨_, Option.map_eq_some_iff.mpr ⟨f, there, rfl⟩, tree, pages, stats, ?_,
      alike.waiting⟩
    simp only [alike.opened]

theorem turn (alike : u.Alike v) (output : c.outputRoot = c'.outputRoot)
    (hu : u.turn c x = some u') (hv : v.turn c' x = some v') : u'.Alike v' := by
  obtain ⟨w, taken, same⟩ := alike.take output (turn_eq_some.mp hu).2
  obtain rfl := Option.some.inj (taken.symm.trans (turn_eq_some.mp hv).2)
  exact same

theorem turns (alike : u.Alike v) (output : c.outputRoot = c'.outputRoot)
    (hu : u.turns c xs = some u') (hv : v.turns c' xs = some v') : u'.Alike v' := by
  induction xs generalizing u v with
  | nil =>
    cases hu
    cases hv
    exact alike
  | cons x xs ih =>
    obtain ⟨p, hp, hu⟩ := turns_cons.mp hu
    obtain ⟨q, hq, hv⟩ := turns_cons.mp hv
    exact ih (alike.turn output hp hq) hu hv

/-- With a larger limit the same turns can be taken. -/
theorem exists_turns (alike : u.Alike v) (output : c.outputRoot = c'.outputRoot)
    (le : c.maxConcurrentFiles ≤ c'.maxConcurrentFiles) (hu : u.turns c xs = some u') :
    ∃ v', v.turns c' xs = some v' ∧ u'.Alike v' := by
  induction xs generalizing u v with
  | nil =>
    cases hu
    exact ⟨v, rfl, alike⟩
  | cons x xs ih =>
    obtain ⟨p, hp, hu⟩ := turns_cons.mp hu
    obtain ⟨allowed, taken⟩ := turn_eq_some.mp hp
    obtain ⟨q, hq, same⟩ := alike.take output taken
    obtain ⟨v', rest, last⟩ := ih same hu
    exact ⟨v', turns_cons.mpr ⟨q, turn_eq_some.mpr ⟨alike.allows le allowed, hq⟩, rest⟩, last⟩

end Alike

/-- A run in turns is an interleaving: the files it is done with have been worked on to their end,
the open ones have been read, and nothing has happened to the others. -/
structure Reached (root : String) (t : Tree) (files : List String) (u : Underway)
    (s : RunState) (done : List FileTask) : Prop where
  steps : Steps root (RunState.start t files) s
  tree : s.tree = u.progress.tree
  pages : s.pages = u.progress.pages
  stats : done.foldl (fun total f => total.merge f.stats) {} = u.progress.stats
  finished : ∀ f ∈ done, f.Finished
  parts : s.files.Perm
    (done ++ (u.opened.map FileTask.opened ++ u.waiting.map FileTask.unread))

namespace Reached
variable {root : String} {t : Tree} {files : List String} {c : Config} {u v : Underway}
  {s : RunState} {done : List FileTask}

theorem start (root : String) (t : Tree) (files : List String) :
    Reached root t files (Underway.start t files) (RunState.start t files) [] :=
  ⟨.refl, rfl, rfl, rfl, fun _ h => absurd h List.not_mem_nil, .refl _⟩

theorem read (h : Reached root t files u s done) {i : Nat}
    (taken : u.take c (.read i) = some v) : ∃ s, Reached root t files v s done := by
  obtain ⟨path, there, rfl⟩ := Option.map_eq_some_iff.mp taken
  obtain ⟨before, after, _, waiting, erased⟩ := exists_split_of_getElem? there
  obtain ⟨tree, pages, tasks⟩ := s
  obtain ⟨steps, rfl, rfl, stats, finished, parts⟩ := h
  rw [waiting, List.map_append, List.map_cons, ← List.append_assoc, ← List.append_assoc] at parts
  obtain ⟨front, back, rfl⟩ := List.append_of_mem (parts.mem_iff.mpr List.mem_append_cons_self)
  refine ⟨_, steps.tail (.read rfl), rfl, rfl, stats, finished, ?_⟩
  have moved : (front ++ FileTask.opened (u.progress.read path) :: back).Perm
      ((done ++ u.opened.map FileTask.opened) ++ FileTask.opened (u.progress.read path) ::
        (before ++ after).map FileTask.unread) := perm_replace _ parts (by simp)
  refine .trans moved (.of_eq ?_)
  simp [erased]

/-- A file that is worked on is done with. -/
theorem finish (h : Reached c.outputRoot t files u s done) {i : Nat}
    (taken : u.take c (.finish i) = some v) :
    ∃ s done, Reached c.outputRoot t files v s done := by
  obtain ⟨o, there, rfl⟩ := Option.map_eq_some_iff.mp taken
  obtain ⟨before, after, _, opened, erased⟩ := exists_split_of_getElem? there
  obtain ⟨tree, pages, tasks⟩ := s
  obtain ⟨steps, rfl, rfl, stats, finished, parts⟩ := h
  rw [opened, List.map_append, List.map_cons, List.append_assoc, List.cons_append,
    ← List.append_assoc] at parts
  obtain ⟨front, back, rfl⟩ := List.append_of_mem (parts.mem_iff.mpr List.mem_append_cons_self)
  obtain ⟨f, worked⟩ := Worked.finish c.verboseLogging o
  refine ⟨_, done ++ [f], steps.trans (worked.steps front back), rfl, rfl, ?_, ?_, ?_⟩
  · rw [List.foldl_append, stats]
    exact worked.stats.symm
  · intro g hg
    rcases List.mem_append.mp hg with old | new
    · exact finished g old
    · exact worked.finished g new
  · have moved : (front ++ f :: back).Perm (done ++ f ::
        ((before ++ after).map FileTask.opened ++ u.waiting.map FileTask.unread)) :=
      perm_replace f parts (by simp)
    refine .trans moved (.of_eq ?_)
    simp [erased]

theorem turns {xs : List Turn} (h : Reached c.outputRoot t files u s done)
    (taken : u.turns c xs = some v) : ∃ s done, Reached c.outputRoot t files v s done := by
  induction xs generalizing u s done with
  | nil =>
    cases taken
    exact ⟨s, done, h⟩
  | cons x xs ih =>
    obtain ⟨w, first, rest⟩ := turns_cons.mp taken
    have taken := (turn_eq_some.mp first).2
    cases x with
    | read i =>
      obtain ⟨s, h⟩ := h.read taken
      exact ih h rest
    | finish i =>
      obtain ⟨s, done, h⟩ := h.finish taken
      exact ih h rest

end Reached

/-- When no file waits and none is open, each has been worked on to its end. -/
theorem interleaves_of_turns {c : Config} {t : Tree} {files : List String} {xs : List Turn}
    {p : Progress} (taken : (start t files).turns c xs = some ⟨p, [], []⟩) :
    ∃ s, Interleaves c.outputRoot t files s ∧ s.tree = p.tree ∧ s.pages = p.pages ∧
      s.stats = p.stats := by
  obtain ⟨s, done, reached⟩ := (Reached.start c.outputRoot t files).turns taken
  have parts : s.files.Perm done := by simpa using reached.parts
  refine ⟨s, ⟨reached.steps, fun f hf => reached.finished f (parts.mem_iff.mp hf)⟩,
    reached.tree, reached.pages, ?_⟩
  exact (Stats.foldl_merge_perm parts {}).trans reached.stats

end Underway

/-- The turns of a run that reads as many files as may be open, and then time and again works on the
first of them and reads another. -/
def Turn.inOrder (limit files : Nat) : List Turn :=
  List.replicate (min limit files) (.read 0) ++
    ((List.replicate (files - limit) [.finish 0, .read 0]).flatten ++
      List.replicate (min limit files) (.finish 0))

namespace Underway
variable {c : Config}

theorem turns_reads (p : Progress) (opened : List OpenFile) (paths : List String) (k : Nat)
    (enough : k ≤ paths.length) (room : opened.length + k ≤ c.maxConcurrentFiles) :
    turns c ⟨p, opened, paths⟩ (List.replicate k (.read 0)) =
      some ⟨p, opened ++ (paths.take k).map p.read, paths.drop k⟩ := by
  induction k generalizing opened paths with
  | zero => simp [turns]
  | succ k ih =>
    cases paths with
    | nil => cases enough
    | cons path paths =>
      have next := ih (opened ++ [p.read path]) paths (Nat.le_of_succ_le_succ enough)
        (by rw [List.length_append, List.length_singleton]; omega)
      refine turns_cons.mpr ⟨⟨p, opened ++ [p.read path], paths⟩, ?_, ?_⟩
      · refine turn_eq_some.mpr ⟨?_, rfl⟩
        simp only [allows, decide_eq_true_eq]
        omega
      · rw [next]
        simp

theorem turns_finishes (p : Progress) (opened : List OpenFile) :
    turns c ⟨p, opened, []⟩ (List.replicate opened.length (.finish 0)) =
      some ⟨opened.foldl (Progress.finish c.outputRoot c.verboseLogging) p, [], []⟩ := by
  induction opened generalizing p with
  | nil => rfl
  | cons f opened ih =>
    exact turns_cons.mpr ⟨⟨p.finish c.outputRoot c.verboseLogging f, opened, []⟩,
      turn_eq_some.mpr ⟨rfl, rfl⟩, ih _⟩

theorem turns_runOpen (p : Progress) (opened : List OpenFile) (paths : List String)
    (some : paths ≠ [] → opened ≠ []) (room : opened.length ≤ c.maxConcurrentFiles) :
    turns c ⟨p, opened, paths⟩ ((List.replicate paths.length [.finish 0, .read 0]).flatten ++
        List.replicate opened.length (.finish 0)) =
      .some ⟨runOpen c.outputRoot c.verboseLogging p opened paths, [], []⟩ := by
  induction paths generalizing p opened with
  | nil =>
    have last := turns_finishes (c := c) p opened
    cases opened <;> exact last
  | cons path paths ih =>
    cases opened with
    | nil => exact absurd rfl (some (List.cons_ne_nil path paths))
    | cons f opened =>
      let q := p.finish c.outputRoot c.verboseLogging f
      have rest := ih q (opened ++ [q.read path]) (by simp) (by simpa using room)
      refine turns_cons.mpr ⟨⟨q, opened, path :: paths⟩, turn_eq_some.mpr ⟨rfl, rfl⟩, ?_⟩
      refine turns_cons.mpr ⟨⟨q, opened ++ [q.read path], paths⟩, turn_eq_some.mpr ⟨?_, rfl⟩, ?_⟩
      · simp only [allows, decide_eq_true_eq]
        exact Nat.lt_of_succ_le room
      · rw [List.length_append] at rest
        exact rest

end Underway

theorem turns_inOrder (c : Config) (t : Tree) (files : List String)
    (limited : 1 ≤ c.maxConcurrentFiles) :
    (Underway.start t files).turns c (Turn.inOrder c.maxConcurrentFiles files.length) =
      some ⟨runFiles c.outputRoot c.verboseLogging c.maxConcurrentFiles { tree := t } files,
        [], []⟩ := by
  let p : Progress := { tree := t }
  have reads := Underway.turns_reads (c := c) p [] files (min c.maxConcurrentFiles files.length)
    (Nat.min_le_right _ _) (by rw [List.length_nil, Nat.zero_add]; exact Nat.min_le_left _ _)
  have taken : files.take (min c.maxConcurrentFiles files.length) =
      files.take c.maxConcurrentFiles := List.take_eq_take_min.symm
  have left : files.drop (min c.maxConcurrentFiles files.length) =
      files.drop c.maxConcurrentFiles := by
    rw [List.drop_eq_drop_iff]
    omega
  have rest := Underway.turns_runOpen (c := c) p ((files.take c.maxConcurrentFiles).map p.read)
    (files.drop c.maxConcurrentFiles) ?_ ?_
  · rw [List.length_map, List.length_take, List.length_drop] at rest
    rw [taken, left, List.nil_append] at reads
    exact Underway.turns_append reads rest
  · intro more none
    have length := congrArg List.length none
    rw [List.length_map, List.length_take, List.length_nil] at length
    refine more (List.drop_eq_nil_of_le ?_)
    omega
  · rw [List.length_map, List.length_take]
    exact Nat.min_le_left _ _

end Questionnaire
