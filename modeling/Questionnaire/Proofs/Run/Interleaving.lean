import Mathlib.Logic.Relation
import Questionnaire.Proofs.Run.Writes
import Questionnaire.Run.Batch

/-!
Files worked on at the same time. Each file is a sequence of atomic actions: it is read, its pages
take their numbers from the counter of the run one by one, and the records of numbered pages are
written one after another. Between two actions of a file there may be any actions of the others.

Whatever number of files is open at a time, a run is one of these interleavings
(`runFiles_interleaves`), so what holds of all of them holds of a run.
-/
namespace Questionnaire
open Files

/-- Counts add up in any order. -/
theorem Stats.foldl_merge_perm {α : Type} {f : α → Stats} {xs ys : List α} (perm : xs.Perm ys)
    (total : Stats) : xs.foldl (fun total x => total.merge (f x)) total =
      ys.foldl (fun total x => total.merge (f x)) total := by
  refine perm.foldl_eq' (fun x _ y _ total => ?_) total
  rw [merge_assoc, merge_comm (f x), merge_assoc]

/-- A file in the course of a run: what has been read from it, the contexts of the pages that have
their numbers, and how its writes have ended. -/
structure FileTask where
  path : String
  read : Option (Except Error Definition) := none
  numbered : List PageContext := []
  writes : List (Except Error String) := []

namespace FileTask

/-- A file that has not been read. -/
def unread (path : String) : FileTask := { path }

/-- A file that has been read. -/
def opened (o : OpenFile) : FileTask := { path := o.path, read := some o.definition }

/-- The pages as far as they are known; a file that does not load has none. -/
def pages (f : FileTask) : List Page :=
  match f.read with
  | some (.ok d) => d.pages
  | _ => []

/-- The outcomes of the pages that have their numbers. -/
def outcomes (f : FileTask) : List PageOutcome := List.zipWith Page.run f.numbered f.pages

/-- The records that have been written or wait for it. -/
def records (f : FileTask) : List Record := f.outcomes.flatMap (·.records)

def stats (f : FileTask) : Stats :=
  match f.read with
  | some (.error _) => { files := 1, filesFailed := 1 }
  | _ => fileStats f.outcomes f.writes

structure Finished (f : FileTask) : Prop where
  read : f.read ≠ none
  numbered : f.numbered.length = f.pages.length
  written : f.writes.length = f.records.length

end FileTask

/-- A run between two actions. -/
structure RunState where
  tree : Tree
  pages : Nat
  files : List FileTask

namespace RunState

/-- The next action of one of the files. -/
inductive Step (root : String) : RunState → RunState → Prop
  | read {t : Tree} {n : Nat} {before after : List FileTask} {f : FileTask} :
      f.read = none →
      Step root ⟨t, n, before ++ f :: after⟩
        ⟨t, n, before ++ { f with read := some (Definition.load t f.path) } :: after⟩
  | number {t : Tree} {n : Nat} {before after : List FileTask} {f : FileTask} {p : Page} :
      f.pages[f.numbered.length]? = some p →
      Step root ⟨t, n, before ++ f :: after⟩
        ⟨t, n + 1, before ++
          { f with numbered := f.numbered ++ [⟨n + 1, p.name, f.path⟩] } :: after⟩
  | write {t : Tree} {n : Nat} {before after : List FileTask} {f : FileTask} {r : Record} :
      f.records[f.writes.length]? = some r →
      Step root ⟨t, n, before ++ f :: after⟩
        ⟨(r.attempt root t).2, n, before ++
          { f with writes := f.writes ++ [(r.attempt root t).1] } :: after⟩

/-- Any number of actions. -/
abbrev Steps (root : String) : RunState → RunState → Prop := Relation.ReflTransGen (Step root)

/-- The state before anything has been read. -/
def start (t : Tree) (paths : List String) : RunState :=
  ⟨t, 0, paths.map FileTask.unread⟩

/-- The counts of the files in their order. -/
def stats (s : RunState) : Stats := s.files.foldl (fun total f => total.merge f.stats) {}

/-- A run of these files to its end. -/
structure Interleaves (root : String) (t : Tree) (paths : List String) (s : RunState) : Prop where
  steps : Steps root (start t paths) s
  finished : ∀ f ∈ s.files, f.Finished

end RunState

open RunState

/-- The contexts of pages that are numbered from behind `before`. -/
def pageContexts (source : String) (before : Nat) : List Page → List PageContext
  | [] => []
  | p :: ps => ⟨before + 1, p.name, source⟩ :: pageContexts source (before + 1) ps

theorem length_pageContexts (source : String) (before : Nat) (ps : List Page) :
    (pageContexts source before ps).length = ps.length := by
  induction ps generalizing before with
  | nil => rfl
  | cons p ps ih => simp [pageContexts, ih]

theorem zipWith_pageContexts (source : String) (before : Nat) (ps : List Page) :
    List.zipWith Page.run (pageContexts source before ps) ps = runPages source before ps := by
  induction ps generalizing before with
  | nil => rfl
  | cons p ps ih => rw [pageContexts, List.zipWith_cons_cons, ih, runPages]

section Alone
variable (root : String) (t : Tree) (n : Nat) (before after : List FileTask)

theorem number_all (f : FileTask) (done rest : List Page) (known : f.pages = done ++ rest)
    (counted : f.numbered.length = done.length) :
    Steps root ⟨t, n, before ++ f :: after⟩ ⟨t, n + rest.length, before ++
      { f with numbered := f.numbered ++ pageContexts f.path n rest } :: after⟩ := by
  induction rest generalizing n f done with
  | nil =>
    rw [pageContexts, List.append_nil]
    exact .refl
  | cons p rest ih =>
    have next : f.pages[f.numbered.length]? = some p := by
      rw [known, counted]
      simp
    refine .head (.number next) ?_
    have onward := ih (n + 1) { f with numbered := f.numbered ++ [⟨n + 1, p.name, f.path⟩] }
      (done ++ [p]) (known.trans (by simp)) (by simp [counted])
    rw [List.append_assoc, Nat.add_right_comm] at onward
    exact onward

theorem write_all (f : FileTask) (done rest : List Record) (known : f.records = done ++ rest)
    (counted : f.writes.length = done.length) :
    Steps root ⟨t, n, before ++ f :: after⟩ ⟨(Record.attemptAll root t rest).2, n, before ++
      { f with writes := f.writes ++ (Record.attemptAll root t rest).1 } :: after⟩ := by
  induction rest generalizing t f done with
  | nil =>
    rw [Record.attemptAll, List.append_nil]
  | cons r rest ih =>
    have next : f.records[f.writes.length]? = some r := by
      rw [known, counted]
      simp
    refine .head (.write next) ?_
    have onward := ih (r.attempt root t).2 { f with writes := f.writes ++ [(r.attempt root t).1] }
      (done ++ [r]) (known.trans (by simp)) (by simp [counted])
    rw [List.append_assoc] at onward
    exact onward

end Alone

/-- Working on some files takes a run from `p` to `q`, whatever is done with other files. -/
structure Worked (root : String) (p q : Progress) (files done : List FileTask) : Prop where
  paths : done.map (·.path) = files.map (·.path)
  finished : ∀ f ∈ done, f.Finished
  stats : q.stats = done.foldl (fun total f => total.merge f.stats) p.stats
  steps : ∀ before after, Steps root ⟨p.tree, p.pages, before ++ (files ++ after)⟩
    ⟨q.tree, q.pages, before ++ (done ++ after)⟩

namespace Worked
variable {root : String} {p q r : Progress} {fs fs' gs gs' : List FileTask}

theorem refl : Worked root p p [] [] :=
  ⟨rfl, fun _ h => absurd h List.not_mem_nil, rfl, fun _ _ => .refl⟩

theorem trans (first : Worked root p q fs fs') (second : Worked root q r gs gs') :
    Worked root p r (fs ++ gs) (fs' ++ gs') := by
  refine ⟨?_, ?_, ?_, fun before after => ?_⟩
  · rw [List.map_append, List.map_append, first.paths, second.paths]
  · intro f hf
    rcases List.mem_append.mp hf with h | h
    · exact first.finished f h
    · exact second.finished f h
  · rw [List.foldl_append, ← first.stats]
    exact second.stats
  · have onward := second.steps (before ++ fs') after
    have toward := first.steps before (gs ++ after)
    simp only [List.append_assoc] at onward toward ⊢
    exact toward.trans onward

/-- A file may be read before the others are worked on. -/
theorem read {path : String} (fs : List FileTask) {gs done : List FileTask}
    (worked : Worked root p q (fs ++ FileTask.opened (p.read path) :: gs) done) :
    Worked root p q (fs ++ FileTask.unread path :: gs) done := by
  refine ⟨?_, worked.finished, worked.stats, fun before after => ?_⟩
  · rw [worked.paths]
    simp [FileTask.opened, FileTask.unread, Progress.read]
  · have onward := worked.steps before after
    have first : Steps root
        ⟨p.tree, p.pages, (before ++ fs) ++ FileTask.unread path :: (gs ++ after)⟩
        ⟨p.tree, p.pages, (before ++ fs) ++ FileTask.opened (p.read path) :: (gs ++ after)⟩ :=
      .single (.read rfl)
    simp only [List.append_assoc, List.cons_append] at onward first ⊢
    exact first.trans onward

theorem reads {paths : List String} (fs : List FileTask) {gs done : List FileTask}
    (worked : Worked root p q
      (fs ++ ((paths.map p.read).map FileTask.opened ++ gs)) done) :
    Worked root p q (fs ++ (paths.map FileTask.unread ++ gs)) done := by
  induction paths generalizing fs with
  | nil => exact worked
  | cons path paths ih =>
    have rest := ih (fs ++ [FileTask.unread path]) (by simpa using worked.read fs)
    simpa using rest

/-- An open file can be worked on without a break. -/
theorem finish (verbose : Bool) (o : OpenFile) :
    ∃ f, Worked root p (p.finish root verbose o) [FileTask.opened o] [f] := by
  obtain ⟨path, definition⟩ := o
  cases definition with
  | error e =>
    refine ⟨FileTask.opened ⟨path, .error e⟩, rfl, ?_, rfl, fun _ _ => .refl⟩
    intro f hf
    obtain rfl := List.mem_singleton.mp hf
    exact ⟨Option.some_ne_none _, rfl, rfl⟩
  | ok d =>
    let opened := FileTask.opened ⟨path, .ok d⟩
    let numbered := { opened with numbered := pageContexts path p.pages d.pages }
    let writes := Record.attemptAll root p.tree numbered.records
    have outcomes : numbered.outcomes = runPages path p.pages d.pages :=
      zipWith_pageContexts path p.pages d.pages
    have records : numbered.records = (runPages path p.pages d.pages).flatMap (·.records) := by
      rw [FileTask.records, outcomes]
    refine ⟨{ numbered with writes := writes.1 }, rfl, ?_, ?_, fun before after => ?_⟩
    · intro f hf
      obtain rfl := List.mem_singleton.mp hf
      exact ⟨Option.some_ne_none _, length_pageContexts path p.pages d.pages,
        Record.length_attemptAll root p.tree numbered.records⟩
    · simp only [Progress.finish, finishFile, ← outcomes]
      rfl
    · have first := number_all root p.tree p.pages before after opened [] d.pages rfl rfl
      have second := write_all root p.tree (p.pages + d.pages.length) before after numbered []
        numbered.records rfl rfl
      simp only [Progress.finish, finishFile, ← records]
      exact first.trans second

end Worked

theorem runOpen_worked (root : String) (verbose : Bool) (p : Progress) (opened : List OpenFile)
    (paths : List String) :
    ∃ done, Worked root p (runOpen root verbose p opened paths)
      (opened.map FileTask.opened ++ paths.map FileTask.unread) done := by
  induction paths generalizing p opened with
  | nil =>
    induction opened generalizing p with
    | nil => exact ⟨[], .refl⟩
    | cons o opened ih =>
      obtain ⟨f, first⟩ := Worked.finish verbose o
      obtain ⟨done, rest⟩ := ih (p.finish root verbose o)
      refine ⟨f :: done, ?_⟩
      have both := first.trans rest
      cases opened <;> exact both
  | cons path paths ih =>
    cases opened with
    | nil =>
      obtain ⟨done, worked⟩ := ih p [p.read path]
      exact ⟨done, Worked.read [] worked⟩
    | cons o opened =>
      obtain ⟨f, first⟩ := Worked.finish verbose o
      let p' := p.finish root verbose o
      obtain ⟨done, rest⟩ := ih p' (opened ++ [p'.read path])
      rw [List.map_append, List.append_assoc] at rest
      exact ⟨f :: done, first.trans (Worked.read _ rest)⟩

/-- With any number of open files a run is an interleaving of its files. -/
theorem runFiles_interleaves (root : String) (verbose : Bool) (limit : Nat) (t : Tree)
    (paths : List String) :
    let after := runFiles root verbose limit { tree := t } paths
    ∃ s, Interleaves root t paths s ∧ s.tree = after.tree ∧ s.pages = after.pages ∧
      s.stats = after.stats := by
  intro after
  obtain ⟨done, worked⟩ := runOpen_worked root verbose { tree := t }
    ((paths.take limit).map (Progress.read { tree := t })) (paths.drop limit)
  have all := Worked.reads [] worked
  rw [List.nil_append, ← List.map_append, List.take_append_drop] at all
  have steps := all.steps [] []
  rw [List.append_nil, List.append_nil] at steps
  exact ⟨⟨after.tree, after.pages, done⟩, ⟨steps, all.finished⟩, rfl, rfl, all.stats.symm⟩

end Questionnaire
