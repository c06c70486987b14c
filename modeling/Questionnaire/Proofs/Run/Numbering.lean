import Mathlib.Data.List.Perm.Basic
import Questionnaire.Proofs.Run.Interleaving

/-!
The numbers of the pages. Each page takes the next value of a counter that all files share, so at
every moment of a run the numbers in use are those from one to the counter, each for one page, and
the pages of a file have theirs in their order (`RunState.Numbered`). An action takes at most one
number, and it is the next one (`Step.numbered`); a file that does not load has no pages and takes
none. The counter has no bound, so this tells of a machine's counter up to 2^64 pages.
-/
namespace Questionnaire
open Files

namespace FileTask

/-- The numbers that the pages have so far. -/
def ordinals (f : FileTask) : List Nat := f.numbered.map (·.ordinal)

theorem ordinals_number (f : FileTask) (c : PageContext) :
    ordinals { f with numbered := f.numbered ++ [c] } = f.ordinals ++ [c.ordinal] :=
  List.map_append

/-- The pages that have a number are the first ones of the file in their order. The numbers grow,
up to `count` at most. -/
structure Numbered (count : Nat) (f : FileTask) : Prop where
  contexts : f.numbered.map (fun c => (c.name, c.source)) =
    (f.pages.take f.numbered.length).map fun p => (p.name, f.path)
  increasing : f.ordinals.Pairwise (· < ·)
  bounded : ∀ n ∈ f.ordinals, n ≤ count

namespace Numbered
variable {f : FileTask} {m n : Nat}

theorem unread (n : Nat) (path : String) : (FileTask.unread path).Numbered n :=
  ⟨rfl, .nil, fun _ h => absurd h List.not_mem_nil⟩

theorem mono (h : f.Numbered m) (le : m ≤ n) : f.Numbered n :=
  ⟨h.contexts, h.increasing, fun k hk => Nat.le_trans (h.bounded k hk) le⟩

theorem length_le (h : f.Numbered n) : f.numbered.length ≤ f.pages.length := by
  have lengths := congrArg List.length h.contexts
  rw [List.length_map, List.length_map, List.length_take] at lengths
  omega

theorem eq_nil (h : f.Numbered n) (none : f.pages = []) : f.numbered = [] := by
  have le := h.length_le
  rw [none] at le
  exact List.eq_nil_of_length_eq_zero (Nat.le_zero.mp le)

/-- Nothing is numbered before it is read. -/
theorem read (h : f.Numbered n) (fresh : f.read = none) (d : Except Error Definition) :
    FileTask.Numbered n { f with read := some d } := by
  have empty : f.numbered = [] := h.eq_nil (by rw [pages, fresh])
  constructor
  · simp only [empty]
    rfl
  · exact h.increasing
  · exact h.bounded

/-- The next page takes a number above all others. -/
theorem number {p : Page} (h : f.Numbered n) (next : f.pages[f.numbered.length]? = some p) :
    FileTask.Numbered (n + 1)
      { f with numbered := f.numbered ++ [⟨n + 1, p.name, f.path⟩] } := by
  have taken : f.pages.take (f.numbered.length + 1) = f.pages.take f.numbered.length ++ [p] := by
    rw [List.take_add_one, next]
    rfl
  constructor
  · rw [List.map_append, h.contexts, List.length_append, List.length_singleton]
    change _ = (f.pages.take (f.numbered.length + 1)).map _
    rw [taken, List.map_append]
    rfl
  · rw [ordinals_number, List.pairwise_append]
    refine ⟨h.increasing, List.pairwise_singleton _ _, ?_⟩
    intro k hk l hl
    obtain rfl := List.mem_singleton.mp hl
    exact Nat.lt_succ_of_le (h.bounded k hk)
  · intro k hk
    rw [ordinals_number] at hk
    rcases List.mem_append.mp hk with old | new
    · exact Nat.le_succ_of_le (h.bounded k old)
    · exact Nat.le_of_eq (List.mem_singleton.mp new)

theorem write (h : f.Numbered n) (writes : List (Except Error String)) :
    FileTask.Numbered n { f with writes } :=
  ⟨h.contexts, h.increasing, h.bounded⟩

theorem stats_pages (h : f.Numbered n) : f.stats.pages = f.ordinals.length := by
  have outcomes : f.outcomes.length = f.ordinals.length := by
    have le := h.length_le
    simp only [FileTask.outcomes, ordinals, List.length_zipWith, List.length_map]
    omega
  cases read : f.read with
  | none =>
    simp only [FileTask.stats, read]
    exact outcomes
  | some d =>
    cases d with
    | ok d =>
      simp only [FileTask.stats, read]
      exact outcomes
    | error e =>
      have empty : f.numbered = [] := h.eq_nil (by rw [pages, read])
      simp only [FileTask.stats, read, ordinals, empty]
      rfl

end Numbered
end FileTask

namespace RunState
variable {root : String} {t : Tree} {paths : List String} {s s' : RunState}

/-- The numbers that have been taken, by the files in their order. -/
def ordinals (s : RunState) : List Nat := s.files.flatMap FileTask.ordinals

/-- The numbers from one to the counter are taken, each by one page. -/
structure Numbered (s : RunState) : Prop where
  taken : s.ordinals.Perm (List.range' 1 s.pages)
  files : ∀ f ∈ s.files, f.Numbered s.pages

theorem numbered_start (t : Tree) (paths : List String) : (start t paths).Numbered := by
  constructor
  · have none : (start t paths).ordinals = [] := by
      simp [ordinals, start, FileTask.ordinals, FileTask.unread]
    rw [none]
    exact .nil
  · intro f hf
    obtain ⟨path, _, rfl⟩ := List.mem_map.mp hf
    exact .unread 0 path

/-- An action that takes no number. -/
theorem Numbered.replace {t' : Tree} {n : Nat} {before after : List FileTask} {f f' : FileTask}
    (h : Numbered ⟨t, n, before ++ f :: after⟩) (same : f'.numbered = f.numbered)
    (kept : f.Numbered n → f'.Numbered n) : Numbered ⟨t', n, before ++ f' :: after⟩ := by
  obtain ⟨taken, files⟩ := h
  rw [List.forall_mem_append, List.forall_mem_cons] at files
  constructor
  · simpa only [ordinals, FileTask.ordinals, List.flatMap_append, List.flatMap_cons, same]
      using taken
  · rw [List.forall_mem_append, List.forall_mem_cons]
    exact ⟨files.1, kept files.2.1, files.2.2⟩

/-- An action that takes a number takes the next one. -/
theorem Numbered.next {n : Nat} {before after : List FileTask} {f : FileTask} {p : Page}
    (h : Numbered ⟨t, n, before ++ f :: after⟩) (next : f.pages[f.numbered.length]? = some p) :
    Numbered ⟨t, n + 1, before ++
      { f with numbered := f.numbered ++ [⟨n + 1, p.name, f.path⟩] } :: after⟩ := by
  obtain ⟨taken, files⟩ := h
  rw [List.forall_mem_append, List.forall_mem_cons] at files
  constructor
  · have moved : (before.flatMap FileTask.ordinals ++ ((f.ordinals ++ [n + 1]) ++
        after.flatMap FileTask.ordinals)).Perm
        ((before.flatMap FileTask.ordinals ++ (f.ordinals ++
          after.flatMap FileTask.ordinals)) ++ [n + 1]) := by
      simp only [List.append_assoc]
      refine .append_left _ (.append_left _ ?_)
      exact List.perm_append_comm
    have last : List.range' 1 (n + 1) = List.range' 1 n ++ [n + 1] := by
      rw [List.range'_concat, Nat.one_mul, Nat.add_comm 1 n]
    simp only [ordinals, List.flatMap_append, List.flatMap_cons] at taken ⊢
    rw [last, FileTask.ordinals_number]
    exact moved.trans (taken.append_right [n + 1])
  · rw [List.forall_mem_append, List.forall_mem_cons]
    refine ⟨fun g hg => ?_, files.2.1.number next, fun g hg => ?_⟩
    · exact (files.1 g hg).mono (Nat.le_succ n)
    · exact (files.2.2 g hg).mono (Nat.le_succ n)

theorem Step.numbered (step : Step root s s') (h : s.Numbered) : s'.Numbered := by
  cases step with
  | read fresh => exact h.replace rfl fun f => f.read fresh _
  | number next => exact h.next next
  | write _ => exact h.replace rfl fun f => f.write _

theorem Steps.numbered (steps : Steps root (start t paths) s) : s.Numbered := by
  induction steps with
  | refl => exact numbered_start t paths
  | tail _ step ih => exact step.numbered ih

theorem foldl_merge_pages {n : Nat} {files : List FileTask} (h : ∀ f ∈ files, f.Numbered n)
    (total : Stats) : (files.foldl (fun total f => total.merge f.stats) total).pages =
      total.pages + (files.flatMap FileTask.ordinals).length := by
  induction files generalizing total with
  | nil => rfl
  | cons f files ih =>
    obtain ⟨first, others⟩ := List.forall_mem_cons.mp h
    rw [List.foldl_cons, ih others, List.flatMap_cons, List.length_append, ← Nat.add_assoc,
      ← first.stats_pages]
    rfl

/-- The counter is the number of pages that the counts of the files tell. -/
theorem Numbered.stats_pages (h : s.Numbered) : s.stats.pages = s.pages := by
  have total := foldl_merge_pages h.files {}
  have taken := h.taken.length_eq
  rw [List.length_range'] at taken
  rw [← taken]
  exact total.trans (Nat.zero_add _)

end RunState

/-- The page that a notice tells to be done. -/
def Notice.page? : Notice → Option PageContext
  | .progress context _ => some context
  | _ => none

/-- The pages that a log tells, in its order. -/
def toldPages (log : List Notice) : List PageContext := log.filterMap Notice.page?

section Contexts
variable (source : String) (before : Nat) (ps : List Page)

theorem pageContexts_ordinals :
    (pageContexts source before ps).map (·.ordinal) = List.range' (before + 1) ps.length := by
  induction ps generalizing before with
  | nil => rfl
  | cons p ps ih => rw [pageContexts, List.map_cons, ih, List.length_cons, List.range'_succ]

theorem pageContexts_names :
    (pageContexts source before ps).map (fun c => (c.name, c.source)) =
      ps.map fun p => (p.name, source) := by
  induction ps generalizing before with
  | nil => rfl
  | cons p ps ih => rw [pageContexts, List.map_cons, ih, List.map_cons]

theorem toldPages_run (context : PageContext) (p : Page) :
    toldPages (p.run context).log = [context] := by
  have skipped : p.errors.filterMap (fun e => (Notice.questionSkipped context e).page?) = [] :=
    List.filterMap_eq_nil_iff.mpr fun _ _ => rfl
  rw [toldPages, Page.run, List.filterMap_append, List.filterMap_map]
  exact congrArg (· ++ [context]) skipped

theorem toldPages_runPages :
    toldPages ((runPages source before ps).flatMap (·.log)) = pageContexts source before ps := by
  induction ps generalizing before with
  | nil => rfl
  | cons p ps ih =>
    have first := toldPages_run ⟨before + 1, p.name, source⟩ p
    rw [runPages, List.flatMap_cons, toldPages, List.filterMap_append]
    exact congrArg₂ (· ++ ·) first (ih (before + 1))

end Contexts

theorem toldPages_notices (verbose : Bool) (writes : List (Except Error String)) :
    toldPages (writes.flatMap (WriteResult.notices verbose)) = [] := by
  rw [toldPages, List.filterMap_flatMap, List.flatMap_eq_nil_iff]
  intro w _
  cases w with
  | error e => rfl
  | ok path => cases verbose <;> rfl

/-- What a file that loads tells of its pages. -/
theorem finishFile_ok (root : String) (verbose : Bool) (t : Tree) (n : Nat) (path : String)
    (d : Definition) :
    let file := finishFile root verbose t n path (.ok d)
    toldPages file.log = pageContexts path n d.pages ∧ file.stats.pages = d.pages.length := by
  constructor
  · simp only [finishFile]
    rw [toldPages, List.filterMap_append]
    have pages := toldPages_runPages path n d.pages
    have writes := toldPages_notices verbose
    simp only [toldPages] at pages writes
    rw [pages, writes, List.append_nil]
  · exact runPages_length path n d.pages

/-- A run numbers its pages from one without a gap and without a repetition, in whatever order the
files take their numbers, and so does each file from where the counter stands. -/
theorem pages_numbered (root : String) (t : Tree) (paths : List String) :
    (∀ s, RunState.Steps root (RunState.start t paths) s →
      s.ordinals.Perm (List.range' 1 s.pages) ∧
      s.stats.pages = s.pages ∧
      ∀ f ∈ s.files, f.ordinals.Pairwise (· < ·) ∧
        f.numbered.map (fun c => (c.name, c.source)) =
          (f.pages.take f.numbered.length).map (fun p => (p.name, f.path)) ∧
        ∀ e, f.read = some (.error e) → f.ordinals = []) ∧
    (∀ verbose limit, let after := runFiles root verbose limit { tree := t } paths
      after.pages = after.stats.pages) ∧
    ∀ verbose n path, let file := runFile root verbose t n path
      (toldPages file.log).map (·.ordinal) = List.range' (n + 1) file.stats.pages ∧
      file.pages = n + file.stats.pages ∧
      (∀ d, Definition.load t path = .ok d →
        (toldPages file.log).map (fun c => (c.name, c.source)) =
          d.pages.map (fun p => (p.name, path))) ∧
      ∀ e, Definition.load t path = .error e → toldPages file.log = [] := by
  refine ⟨fun s steps => ?_, fun verbose limit => ?_, fun verbose n path => ?_⟩
  · have numbered := RunState.Steps.numbered steps
    refine ⟨numbered.taken, numbered.stats_pages, fun f hf => ?_⟩
    have file := numbered.files f hf
    refine ⟨file.increasing, file.contexts, fun e failed => ?_⟩
    have empty : f.numbered = [] := file.eq_nil (by rw [FileTask.pages, failed])
    rw [FileTask.ordinals, empty]
    rfl
  · obtain ⟨s, interleaves, _, pages, stats⟩ := runFiles_interleaves root verbose limit t paths
    have numbered := RunState.Steps.numbered interleaves.steps
    exact pages.symm.trans (numbered.stats_pages.symm.trans (congrArg Stats.pages stats))
  · cases load : Definition.load t path with
    | error e =>
      simp only [runFile, load]
      refine ⟨rfl, rfl, fun d h => ?_, fun _ _ => rfl⟩
      cases h
    | ok d =>
      simp only [runFile, load]
      obtain ⟨told, count⟩ := finishFile_ok root verbose t n path d
      refine ⟨?_, ?_, ?_, ?_⟩
      · rw [told, count]
        exact pageContexts_ordinals path n d.pages
      · rw [count]
        rfl
      · intro d' h
        obtain rfl := Except.ok.inj h
        rw [told]
        exact pageContexts_names path n d.pages
      · intro e h
        cases h

/-- Two pages, no definition, and one page. -/
private def numberedTree : Tree where
  root := .dir [("work", .dir
    [("a.yml", .file "P: \x7b\x7d\nQ: \x7b\x7d\n".toUTF8), ("b.yml", .file "P: 1\n".toUTF8),
      ("c.yml", .file "R: \x7b\x7d\n".toUTF8)])]
  cwd := ["work"]

/-- The page of the last file is numbered between those of the first; the other file does not
load. -/
theorem pages_numbered_between :
    let paths := ["a.yml", "b.yml", "c.yml"]
    ∃ s, RunState.Steps "out" (RunState.start numberedTree paths) s ∧
      s.files.map FileTask.ordinals = [[1, 3], [], [2]] ∧ s.ordinals.Perm (List.range' 1 3) ∧
      s.stats.pages = s.pages ∧ s.files.map (·.read.map Except.isOk) = [true, false, true] ∧
      (toldPages (runFile "out" false numberedTree 7 "a.yml").log).map (·.ordinal) =
        List.range' 8 2 := by
  intro paths
  have pages : ∀ path count, (Definition.load numberedTree path).toOption.map (·.pages.length) =
      some count → ∃ d, Definition.load numberedTree path = .ok d ∧ d.pages.length = count := by
    intro path count h
    obtain ⟨d, load, length⟩ := Option.map_eq_some_iff.mp h
    exact ⟨d, eq_ok_of_toOption load, length⟩
  obtain ⟨a, loadA, two⟩ := pages "a.yml" 2 (by decide +kernel)
  obtain ⟨c, loadC, single⟩ := pages "c.yml" 1 (by decide +kernel)
  obtain ⟨p, q, pagesA⟩ := List.length_eq_two.mp two
  obtain ⟨r, pagesC⟩ := List.length_eq_one_iff.mp single
  let first : FileTask := { path := "a.yml", read := some (Definition.load numberedTree "a.yml") }
  let last : FileTask := { path := "c.yml", read := some (Definition.load numberedTree "c.yml") }
  have knownA : first.pages = [p, q] := by simp only [FileTask.pages, first, loadA, pagesA]
  have knownC : last.pages = [r] := by simp only [FileTask.pages, last, loadC, pagesC]
  have failed : (Definition.load numberedTree "b.yml").isOk = false := by decide +kernel
  let other := FileTask.unread "b.yml"
  let one := { first with numbered := [⟨1, p.name, "a.yml"⟩] }
  let done := { last with numbered := [⟨2, r.name, "c.yml"⟩] }
  have steps : RunState.Steps "out" (RunState.start numberedTree paths) ⟨numberedTree, 3,
      [{ one with numbered := one.numbered ++ [⟨3, q.name, "a.yml"⟩] },
        { other with read := some (Definition.load numberedTree "b.yml") }, done]⟩ := by
    refine .head (@RunState.Step.read "out" numberedTree 0 [] _ (.unread "a.yml") rfl) ?_
    refine .head (@RunState.Step.read "out" numberedTree 0 [first, other] [] (.unread "c.yml")
      rfl) ?_
    refine .head (@RunState.Step.number "out" numberedTree 0 [] [other, last] first p ?_) ?_
    · rw [knownA]
      rfl
    refine .head (@RunState.Step.number "out" numberedTree 1 [one, other] [] last r ?_) ?_
    · rw [knownC]
      rfl
    refine .head (@RunState.Step.number "out" numberedTree 2 [] [other, done] one q ?_) ?_
    · change first.pages[1]? = some q
      rw [knownA]
      rfl
    exact .single (@RunState.Step.read "out" numberedTree 3 [_] [done] other rfl)
  obtain ⟨running, _, alone⟩ := pages_numbered "out" numberedTree paths
  obtain ⟨taken, count, _⟩ := running _ steps
  have told := (alone false 7 "a.yml").1
  have twoPages : (runFile "out" false numberedTree 7 "a.yml").stats.pages = 2 := by decide +kernel
  rw [twoPages] at told
  refine ⟨_, steps, rfl, taken, count, ?_, told⟩
  change [some (Definition.load numberedTree "a.yml").isOk,
    some (Definition.load numberedTree "b.yml").isOk,
    some (Definition.load numberedTree "c.yml").isOk] = [some true, some false, some true]
  rw [loadA, loadC, failed]
  rfl

end Questionnaire
