import Mathlib.Data.List.Basic
import Questionnaire.Proofs.Run.Confinement

/-!
What does not depend on the order of a run. If no file of the input stands where a record is written
and the output directory holds no links, every file loads as at the start and every write ends as it
would have at the start, whatever the other files have done meanwhile (`Amid`). So all interleavings
count the same, and each name of the output directory holds what it held or what one of the files
leaves there (`interleavings_agree`).
-/
namespace Questionnaire
open Files
open Files.Tree (outputPlace?_sameFrame unlinked_sameFrame)

namespace Definition

/-- The records of a file; none if it does not load. -/
def recordsAt (t : Tree) (path : String) : List Record :=
  match load t path with
  | .ok d => d.records
  | .error _ => []

theorem records_eq (d : Definition) : d.records = d.pages.flatMap Page.records := by
  rw [records, results, List.filterMap_flatMap]
  rfl

theorem load_toOption {t t' : Tree} {path : String}
    (h : (t'.readText path).toOption = (t.readText path).toOption) :
    (load t' path).toOption = (load t path).toOption := by
  cases hr : t.readText path with
  | ok text =>
    rw [hr] at h
    simp only [load, hr, eq_ok_of_toOption h]
  | error e =>
    cases hr' : t'.readText path with
    | ok text => rw [hr, hr'] at h; cases h
    | error e' =>
      simp only [load, hr, hr']
      rfl

end Definition

namespace Record

/-- The text of the last record of a name among those that can be written. -/
def lastFit? (t : Tree) (root name : String) (rs : List Record) : Option String :=
  (rs.reverse.find? fun r => r.fits t root && r.filename == name).bind text?

theorem lastFit?_concat (t : Tree) (root name : String) (rs : List Record) (r : Record) :
    lastFit? t root name (rs ++ [r]) =
      if r.fits t root && r.filename == name then r.text? else lastFit? t root name rs := by
  rw [lastFit?, List.reverse_append, List.reverse_singleton, List.singleton_append,
    List.find?_cons]
  cases r.fits t root && r.filename == name <;> rfl

theorem exists_of_lastFit? {t : Tree} {root name text : String} {rs : List Record}
    (h : lastFit? t root name rs = some text) :
    ∃ r ∈ rs, r.fits t root ∧ r.filename = name ∧ r.text? = some text := by
  obtain ⟨r, found, htext⟩ := Option.bind_eq_some_iff.mp h
  have fit := List.find?_some found
  rw [Bool.and_eq_true, beq_iff_eq] at fit
  exact ⟨r, List.mem_reverse.mp (List.mem_of_find?_eq_some found), fit.1, fit.2, htext⟩

end Record

namespace FileTask

theorem records_eq (f : FileTask) :
    f.records = (f.pages.take f.numbered.length).flatMap Page.records := by
  rw [records, outcomes]
  generalize f.numbered = contexts
  generalize f.pages = ps
  induction contexts generalizing ps with
  | nil => rfl
  | cons c contexts ih =>
    cases ps with
    | nil => rfl
    | cons p ps =>
      rw [List.zipWith_cons_cons, List.flatMap_cons, ih, List.length_cons, List.take_succ_cons,
        List.flatMap_cons]
      rfl

/-- The records whose writes have ended. -/
def written (f : FileTask) : List Record := f.records.take f.writes.length

/-- A file that has been read as it was at the start of the run, and whose writes have ended as they
would have then. -/
structure Amid (root : String) (t : Tree) (f : FileTask) : Prop where
  numbered : f.numbered.length ≤ f.pages.length
  begun : f.writes.length ≤ f.records.length
  read : ∀ d, f.read = some d → d.toOption = (Definition.load t f.path).toOption
  ended : f.writes.map WriteResult.isOk = f.written.map (Record.fits t root)

namespace Amid
variable {root : String} {t : Tree} {f : FileTask}

theorem records_subset (h : Amid root t f) : f.records ⊆ Definition.recordsAt t f.path := by
  intro r hr
  rw [records_eq] at hr
  obtain ⟨p, hp, hr⟩ := List.mem_flatMap.mp hr
  have hp := List.mem_of_mem_take hp
  rw [pages] at hp
  cases hread : f.read with
  | none => rw [hread] at hp; cases hp
  | some result =>
    rw [hread] at hp
    cases result with
    | error e => cases hp
    | ok d =>
      have loads := eq_ok_of_toOption (h.read _ hread).symm
      rw [Definition.recordsAt, loads]
      change r ∈ d.records
      rw [Definition.records_eq]
      exact List.mem_flatMap.mpr ⟨p, hp, hr⟩

/-- A file that is finished has been written as a whole. -/
theorem written_eq (h : Amid root t f) (finished : f.Finished) :
    f.written = Definition.recordsAt t f.path := by
  rw [written, finished.written, List.take_length, records_eq, finished.numbered,
    List.take_length, pages]
  cases hread : f.read with
  | none => exact absurd hread finished.read
  | some result =>
    cases result with
    | error e =>
      have fails := h.read _ hread
      cases hl : Definition.load t f.path with
      | error e' => rw [Definition.recordsAt, hl]; rfl
      | ok d => rw [hl] at fails; cases fails
    | ok d =>
      rw [Definition.recordsAt, eq_ok_of_toOption (h.read _ hread).symm]
      exact (Definition.records_eq d).symm

theorem number (h : Amid root t f) {p : Page} (next : f.pages[f.numbered.length]? = some p)
    (c : PageContext) :
    Amid root t { f with numbered := f.numbered ++ [c] } ∧
      FileTask.written { f with numbered := f.numbered ++ [c] } = f.written := by
  have bound : f.numbered.length < f.pages.length := (List.getElem?_eq_some_iff.mp next).1
  have records : FileTask.records { f with numbered := f.numbered ++ [c] } =
      f.records ++ p.records := by
    rw [records_eq, records_eq, List.length_append, List.length_singleton]
    change (f.pages.take (f.numbered.length + 1)).flatMap Page.records = _
    rw [List.take_add_one, next, List.flatMap_append]
    simp
  have written : FileTask.written { f with numbered := f.numbered ++ [c] } = f.written := by
    rw [FileTask.written, records]
    exact List.take_append_of_le_length h.begun
  refine ⟨⟨?_, ?_, h.read, ?_⟩, written⟩
  · rw [List.length_append]
    exact bound
  · rw [records, List.length_append]
    exact Nat.le_add_right_of_le h.begun
  · rw [written]
    exact h.ended

theorem write (h : Amid root t f) {r : Record} (next : f.records[f.writes.length]? = some r)
    {w : Except Error String} (ends : WriteResult.isOk w = r.fits t root) :
    Amid root t { f with writes := f.writes ++ [w] } ∧
      FileTask.written { f with writes := f.writes ++ [w] } = f.written ++ [r] := by
  have bound : f.writes.length < f.records.length := (List.getElem?_eq_some_iff.mp next).1
  have written : FileTask.written { f with writes := f.writes ++ [w] } = f.written ++ [r] := by
    rw [FileTask.written, List.length_append, List.length_singleton]
    change f.records.take (f.writes.length + 1) = _
    rw [List.take_add_one, next]
    rfl
  refine ⟨⟨h.numbered, ?_, h.read, ?_⟩, written⟩
  · rw [List.length_append]
    exact bound
  · rw [written, List.map_append, List.map_append, h.ended, List.map_singleton, List.map_singleton,
      ends]

theorem load (h : Amid root t f) (unread : f.read = none) {d : Except Error Definition}
    (loads : d.toOption = (Definition.load t f.path).toOption) :
    Amid root t { f with read := some d } ∧
      FileTask.written { f with read := some d } = f.written := by
  have pages : f.pages = [] := by rw [FileTask.pages, unread]
  have numbered : f.numbered = [] := by
    simpa [pages] using h.numbered
  have records : ∀ d?, FileTask.records { f with read := d? } = [] := by
    intro d?
    rw [records_eq, numbered]
    rfl
  have writes : f.writes = [] := by
    have begun := h.begun
    have idle : f.records = [] := records f.read
    simpa [idle] using begun
  refine ⟨⟨?_, ?_, ?_, ?_⟩, ?_⟩
  · simp [numbered]
  · simp [writes]
  · rintro d' ⟨⟩
    exact loads
  · simp [writes, FileTask.written]
  · simp [writes, FileTask.written]

end Amid
end FileTask

/-- No file of the input stands where a record is written. -/
def Apart (root : String) (t : Tree) (paths : List String) : Prop :=
  ∀ path ∈ paths, ∀ other ∈ paths, ∀ r ∈ Definition.recordsAt t other, r.fits t root →
    ∀ place, t.target? (joinPath root r.filename) = some place → t.target? path ≠ some place

/-- A run on the way: each name holds what some file has written under it last. -/
structure RunState.Amid (root : String) (t : Tree) (paths : List String) (s : RunState) : Prop where
  paths : s.files.map (·.path) = paths
  files : ∀ f ∈ s.files, f.Amid root t
  confined : Confined root t s.tree
  names : ∀ place, t.outputPlace? root = some place → ∀ name,
    (s.tree.node? (place ++ [name]) = t.node? (place ++ [name]) ∧
        ∀ rs ∈ s.files.map (·.written), Record.lastFit? t root name rs = none) ∨
      ∃ rs ∈ s.files.map (·.written), ∃ text, Record.lastFit? t root name rs = some text ∧
        s.tree.node? (place ++ [name]) = some (.file text.toUTF8)

namespace RunState.Amid
variable {root : String} {t : Tree} {paths : List String}

theorem start (root : String) (t : Tree) (paths : List String) :
    Amid root t paths (RunState.start t paths) := by
  refine ⟨?_, fun f hf => ?_, .refl, fun place _ name => Or.inl ⟨rfl, fun rs hrs => ?_⟩⟩
  · rw [RunState.start, List.map_map]
    exact List.map_id' paths
  · obtain ⟨path, _, rfl⟩ := List.mem_map.mp hf
    exact ⟨Nat.le_refl _, Nat.le_refl _, fun _ h => (nomatch h), rfl⟩
  · rw [RunState.start, List.map_map] at hrs
    obtain ⟨path, _, rfl⟩ := List.mem_map.mp hrs
    rfl

/-- Files load as they did at the start. -/
theorem load_eq {s : RunState} (amid : Amid root t paths s) (unlinked : t.Unlinked root)
    (apart : Apart root t paths) {path : String} (hpath : path ∈ paths) :
    (Definition.load s.tree path).toOption = (Definition.load t path).toOption := by
  refine Definition.load_toOption (Tree.readText_toOption amid.confined.frame amid.confined.cwd ?_)
  intro q target
  by_cases output : ∃ place name, t.outputPlace? root = some place ∧ q = place ++ [name]
  · obtain ⟨place, name, leads, rfl⟩ := output
    rcases amid.names place leads name with ⟨same, _⟩ | ⟨rs, hrs, text, last, _⟩
    · exact same
    · -- A record has been written there, so the path is not one of the input.
      obtain ⟨f, hf, rfl⟩ := List.mem_map.mp hrs
      obtain ⟨r, hr, fit, rfl, _⟩ := Record.exists_of_lastFit? last
      have hrecords := List.mem_of_mem_take hr
      have hname := (FileTask.isOutputName_records hrecords).toIsName
      have accepted := (Bool.and_eq_true _ _ ▸ fit : _ ∧ _).2
      have hother : f.path ∈ paths := amid.paths ▸ List.mem_map_of_mem hf
      have stands := Tree.target?_of_accepts unlinked hname leads accepted
      exact absurd target (apart path hpath f.path hother r
        ((amid.files f hf).records_subset hrecords) fit _ stands)
  · exact amid.confined.others q fun place name leads _ there => output ⟨place, name, leads, there⟩

theorem mem_replace {α : Type} {before after : List α} {a b c : α}
    (h : c ∈ before ++ b :: after) : c = b ∨ c ∈ before ++ a :: after := by
  rcases List.mem_append.mp h with h | h
  · exact Or.inr (List.mem_append_left _ h)
  · rcases List.mem_cons.mp h with h | h
    · exact Or.inl h
    · exact Or.inr (List.mem_append_right _ (List.mem_cons_of_mem _ h))

/-- A file goes on without a write. -/
theorem replace {now : Tree} {n m : Nat} {before after : List FileTask} {f f' : FileTask}
    (amid : Amid root t paths ⟨now, n, before ++ f :: after⟩) (path : f'.path = f.path)
    (file : f'.Amid root t) (written : f'.written = f.written) :
    Amid root t paths ⟨now, m, before ++ f' :: after⟩ := by
  have same : (before ++ f' :: after).map (·.written) = (before ++ f :: after).map (·.written) := by
    simp only [List.map_append, List.map_cons, written]
  refine ⟨?_, fun g hg => ?_, amid.confined, fun place leads name => ?_⟩
  · rw [← amid.paths]
    simp only [List.map_append, List.map_cons, path]
  · rcases mem_replace (a := f) hg with rfl | hg
    · exact file
    · exact amid.files g hg
  · rw [same]
    exact amid.names place leads name

theorem step {s s' : RunState} (amid : Amid root t paths s) (unlinked : t.Unlinked root)
    (apart : Apart root t paths) (step : Step root s s') : Amid root t paths s' := by
  have linkless := unlinked_sameFrame amid.confined.frame amid.confined.cwd unlinked
  have confined := amid.confined.trans (step_confined linkless step)
  cases step with
  | @read now n before after f unread =>
    have hf : f ∈ before ++ f :: after := List.mem_append_right _ List.mem_cons_self
    have loads := amid.load_eq unlinked apart (amid.paths ▸ List.mem_map_of_mem hf)
    obtain ⟨file, written⟩ := (amid.files f hf).load unread loads
    exact amid.replace rfl file written
  | @number now n before after f p next =>
    have hf : f ∈ before ++ f :: after := List.mem_append_right _ List.mem_cons_self
    obtain ⟨file, written⟩ := (amid.files f hf).number next ⟨n + 1, p.name, f.path⟩
    exact amid.replace rfl file written
  | @write now n before after f r next =>
    have hf : f ∈ before ++ f :: after := List.mem_append_right _ List.mem_cons_self
    have hname := (FileTask.isOutputName_records (List.mem_of_getElem? next)).toIsName
    have fits : r.fits now root = r.fits t root :=
      Record.fits_sameFrame amid.confined.frame amid.confined.cwd
    have ends : WriteResult.isOk (r.attempt root now).1 = r.fits t root :=
      (Record.isOk_attempt linkless hname).trans fits
    obtain ⟨file, written⟩ := (amid.files f hf).write next ends
    refine ⟨?_, fun g hg => ?_, confined, fun place leads name => ?_⟩
    · rw [← amid.paths]
      simp only [List.map_append, List.map_cons]
    · rcases mem_replace (a := f) hg with rfl | hg
      · exact file
      · exact amid.files g hg
    · have leads' : now.outputPlace? root = some place :=
        (outputPlace?_sameFrame amid.confined.frame amid.confined.cwd root).trans leads
      have node := Record.node?_attempt linkless hname leads' name
      have last := Record.lastFit?_concat t root name f.written r
      rw [fits] at node
      rw [List.map_append, List.map_cons, written]
      cases hits : r.fits t root && r.filename == name with
      | true =>
        -- The record is the last one of its file, and the name holds its text.
        rw [hits, if_pos rfl] at node last
        rw [Bool.and_eq_true, Record.fits, Bool.and_eq_true] at hits
        obtain ⟨text, htext⟩ := Option.isSome_iff_exists.mp hits.1.1
        rw [htext] at node last
        exact Or.inr ⟨_, List.mem_append_right _ List.mem_cons_self, text, last, node⟩
      | false =>
        rw [hits, if_neg Bool.false_ne_true] at node last
        have before := amid.names place leads name
        rw [List.map_append, List.map_cons] at before
        rcases before with ⟨same, none⟩ | ⟨rs, hrs, text, hlast, hnode⟩
        · refine Or.inl ⟨node.trans same, fun rs hrs => ?_⟩
          rcases mem_replace (a := f.written) hrs with rfl | hrs
          · rw [last]
            exact none _ (List.mem_append_right _ List.mem_cons_self)
          · exact none rs hrs
        · refine Or.inr ?_
          rcases mem_replace (a := f.written ++ [r]) hrs with rfl | hrs
          · exact ⟨_, List.mem_append_right _ List.mem_cons_self, text, last.trans hlast,
              node.trans hnode⟩
          · exact ⟨rs, hrs, text, hlast, node.trans hnode⟩

theorem of_steps {s : RunState} (unlinked : t.Unlinked root) (apart : Apart root t paths)
    (steps : Steps root (.start t paths) s) : Amid root t paths s := by
  induction steps with
  | refl => exact start root t paths
  | tail _ next ih => exact ih.step unlinked apart next

end RunState.Amid

/-- The counts of a file whose writes end as they would in a tree. -/
def Definition.statsAt (t : Tree) (root path : String) : Stats :=
  match load t path with
  | .error _ => { files := 1, filesFailed := 1 }
  | .ok d =>
    { files := 1
      pages := d.pages.length
      questionsSkipped := d.results.countP (!·.isOk)
      questionsWritten := d.records.countP (Record.fits t root)
      writesFailed := d.records.countP (!Record.fits t root ·) }

theorem skipped_zipWith {contexts : List PageContext} {ps : List Page}
    (h : contexts.length = ps.length) :
    (List.zipWith Page.run contexts ps).foldr (fun o n => o.skipped + n) 0 =
      (ps.flatMap Page.results).countP (!·.isOk) := by
  induction contexts generalizing ps with
  | nil =>
    cases ps with
    | nil => rfl
    | cons p ps => cases h
  | cons c contexts ih =>
    cases ps with
    | nil => cases h
    | cons p ps =>
      rw [List.zipWith_cons_cons, List.foldr_cons, ih (Nat.succ.inj h), List.flatMap_cons,
        List.countP_append]
      simp only [Page.run, Page.length_errors]

/-- A file that is finished has the counts that it would have had at the start. -/
theorem FileTask.Amid.stats_eq {root : String} {t : Tree} {f : FileTask} (h : f.Amid root t)
    (finished : f.Finished) : f.stats = Definition.statsAt t root f.path := by
  have written := h.written_eq finished
  cases hread : f.read with
  | none => exact absurd hread finished.read
  | some result =>
    cases result with
    | error e =>
      have fails := h.read _ hread
      cases hl : Definition.load t f.path with
      | error e' => simp only [stats, hread, Definition.statsAt, hl]
      | ok d => rw [hl] at fails; cases fails
    | ok d =>
      have loads := eq_ok_of_toOption (h.read _ hread).symm
      have pages : f.pages = d.pages := by rw [FileTask.pages, hread]
      have numbered : f.numbered.length = d.pages.length := pages ▸ finished.numbered
      have length : f.outcomes.length = d.pages.length := by
        rw [outcomes, List.length_zipWith, pages, numbered, Nat.min_self]
      have skipped : f.outcomes.foldr (fun o n => o.skipped + n) 0 =
          d.results.countP (!·.isOk) := by
        rw [outcomes, pages, skipped_zipWith numbered]
        rfl
      have ended : f.writes.map WriteResult.isOk = d.records.map (Record.fits t root) := by
        rw [h.ended, written, Definition.recordsAt, loads]
      have count : ∀ b : Bool → Bool, f.writes.countP (fun w => b (WriteResult.isOk w)) =
          d.records.countP (fun r => b (r.fits t root)) := by
        intro b
        have both := congrArg (List.countP b) ended
        rwa [List.countP_map, List.countP_map] at both
      simp only [stats, hread, fileStats, Definition.statsAt, loads, length, skipped,
        Stats.mk.injEq, true_and]
      exact ⟨count id, count not⟩

/-- A question of the file at a path gives its record this name. -/
def Definition.Names (t : Tree) (path name : String) : Prop :=
  ∃ r ∈ recordsAt t path, r.filename = name

theorem Apart.perm {root : String} {t : Tree} {paths order : List String}
    (apart : Apart root t paths) (perm : order.Perm paths) : Apart root t order :=
  fun path hpath other hother => apart path (perm.mem_iff.mp hpath) other (perm.mem_iff.mp hother)

/-- What a finished run has come to, told from the tree at its start. -/
structure RunState.Settled (root : String) (t : Tree) (paths : List String) (s : RunState) :
    Prop where
  stats : s.stats = paths.foldl (fun total path => total.merge (Definition.statsAt t root path)) {}
  confined : Confined root t s.tree
  names : ∀ place, t.outputPlace? root = some place → ∀ name,
    (s.tree.node? (place ++ [name]) = t.node? (place ++ [name]) ∧
        ∀ path ∈ paths, Record.lastFit? t root name (Definition.recordsAt t path) = none) ∨
      ∃ path ∈ paths, ∃ text,
        Record.lastFit? t root name (Definition.recordsAt t path) = some text ∧
        s.tree.node? (place ++ [name]) = some (.file text.toUTF8)

namespace RunState
variable {root : String} {t : Tree} {paths : List String} {s a b : RunState}

theorem Interleaves.settled (unlinked : t.Unlinked root) (apart : Apart root t paths)
    (run : Interleaves root t paths s) : Settled root t paths s := by
  have amid := Amid.of_steps unlinked apart run.steps
  have written : s.files.map (·.written) = paths.map (Definition.recordsAt t) := by
    rw [← amid.paths, List.map_map]
    exact List.map_congr_left fun f hf => (amid.files f hf).written_eq (run.finished f hf)
  refine ⟨?_, amid.confined, fun place leads name => ?_⟩
  · have counts : s.files.map (·.stats) = paths.map (Definition.statsAt t root) := by
      rw [← amid.paths, List.map_map]
      exact List.map_congr_left fun f hf => (amid.files f hf).stats_eq (run.finished f hf)
    rw [RunState.stats, ← List.foldl_map, counts, List.foldl_map]
  · have names := amid.names place leads name
    rw [written] at names
    rcases names with ⟨same, none⟩ | ⟨rs, hrs, last⟩
    · exact Or.inl ⟨same, List.forall_mem_map.mp none⟩
    · obtain ⟨path, hpath, rfl⟩ := List.mem_map.mp hrs
      exact Or.inr ⟨path, hpath, last⟩

namespace Settled

theorem perm {order : List String} (settled : Settled root t order s) (perm : order.Perm paths) :
    Settled root t paths s := by
  refine ⟨?_, settled.confined, fun place leads name => ?_⟩
  · exact settled.stats.trans (Stats.foldl_merge_perm perm {})
  · simpa only [perm.mem_iff] using settled.names place leads name

/-- A name holds what it held or the text of a question that derives it. -/
theorem name_or (settled : Settled root t paths s) {place : List String}
    (leads : t.outputPlace? root = some place) (name : String) :
    s.tree.node? (place ++ [name]) = t.node? (place ++ [name]) ∨
      ∃ path ∈ paths, ∃ r ∈ Definition.recordsAt t path, r.filename = name ∧
        ∃ text, r.text? = some text ∧
          s.tree.node? (place ++ [name]) = some (.file text.toUTF8) := by
  rcases settled.names place leads name with ⟨same, _⟩ | ⟨path, hpath, text, last, node⟩
  · exact Or.inl same
  · obtain ⟨r, hr, _, named, htext⟩ := Record.exists_of_lastFit? last
    exact Or.inr ⟨path, hpath, r, hr, named, text, htext, node⟩

/-- A name of one file holds the same after both runs. -/
theorem name_eq (first : Settled root t paths a) (second : Settled root t paths b)
    {place : List String} (leads : t.outputPlace? root = some place) {name p : String}
    (only : ∀ other ∈ paths, Definition.Names t other name → other = p) :
    a.tree.node? (place ++ [name]) = b.tree.node? (place ++ [name]) := by
  have owner : ∀ other ∈ paths, ∀ text,
      Record.lastFit? t root name (Definition.recordsAt t other) = some text → other = p := by
    intro other hother text last
    obtain ⟨r, hr, _, named, _⟩ := Record.exists_of_lastFit? last
    exact only other hother ⟨r, hr, named⟩
  rcases first.names place leads name with ⟨sameA, noneA⟩ | ⟨o, ho, text, lastA, nodeA⟩
  · rcases second.names place leads name with ⟨sameB, _⟩ | ⟨q, hq, text', lastB, _⟩
    · exact sameA.trans sameB.symm
    · rw [noneA q hq] at lastB
      cases lastB
  · rcases second.names place leads name with ⟨_, noneB⟩ | ⟨q, hq, text', lastB, nodeB⟩
    · rw [noneB o ho] at lastA
      cases lastA
    · obtain rfl := owner o ho text lastA
      obtain rfl := owner q hq text' lastB
      obtain rfl := Option.some.inj (lastA.symm.trans lastB)
      exact nodeA.trans nodeB.symm

/-- If no two files have a name in common the two trees are the same. -/
theorem tree_eq (first : Settled root t paths a) (second : Settled root t paths b)
    (separate : ∀ path ∈ paths, ∀ other ∈ paths, ∀ name, Definition.Names t path name →
      Definition.Names t other name → path = other) (q : List String) :
    a.tree.node? q = b.tree.node? q := by
  by_cases output : ∃ place name, t.outputPlace? root = some place ∧ q = place ++ [name]
  · obtain ⟨place, name, leads, rfl⟩ := output
    by_cases named : ∃ path ∈ paths, Definition.Names t path name
    · obtain ⟨path, hpath, names⟩ := named
      exact name_eq first second leads fun other hother others =>
        separate other hother path hpath name others names
    · exact name_eq first second leads (p := "") fun other hother others =>
        absurd ⟨other, hother, others⟩ named
  · have outside : ∀ place name, t.outputPlace? root = some place → IsOutputName name →
        q ≠ place ++ [name] := fun place name leads _ there => output ⟨place, name, leads, there⟩
    rw [first.confined.others q outside, second.confined.others q outside]

end Settled
end RunState

/-- Whatever the order of the actions of some files is, their run counts the same, and only a name
that several of them give can hold different texts after two runs. The run of any order of the files
with any limit on open files is among these runs. -/
theorem interleavings_agree {root : String} {t : Tree} {paths : List String}
    (unlinked : t.Unlinked root) (apart : Apart root t paths) :
    (∀ order verbose limit, order.Perm paths →
        ∃ s, RunState.Interleaves root t order s ∧
          s.tree = (runFiles root verbose limit { tree := t } order).tree ∧
          s.stats = (runFiles root verbose limit { tree := t } order).stats) ∧
      ∀ first second a b, first.Perm paths → second.Perm paths →
        RunState.Interleaves root t first a → RunState.Interleaves root t second b →
        a.stats = b.stats ∧
          (∀ place, t.outputPlace? root = some place → ∀ name,
            (a.tree.node? (place ++ [name]) = t.node? (place ++ [name]) ∨
              ∃ path ∈ paths, ∃ r ∈ Definition.recordsAt t path, r.filename = name ∧
                ∃ text, r.text? = some text ∧
                  a.tree.node? (place ++ [name]) = some (.file text.toUTF8)) ∧
            ∀ path, (∀ other ∈ paths, Definition.Names t other name → other = path) →
              a.tree.node? (place ++ [name]) = b.tree.node? (place ++ [name])) ∧
          ((∀ path ∈ paths, ∀ other ∈ paths, ∀ name, Definition.Names t path name →
              Definition.Names t other name → path = other) →
            a.tree.cwd = b.tree.cwd ∧ ∀ q, a.tree.node? q = b.tree.node? q) := by
  constructor
  · intro order verbose limit _
    obtain ⟨s, interleaves, tree, _, stats⟩ := runFiles_interleaves root verbose limit t order
    exact ⟨s, interleaves, tree, stats⟩
  · intro first second a b permA permB runA runB
    have settledA := (runA.settled unlinked (apart.perm permA)).perm permA
    have settledB := (runB.settled unlinked (apart.perm permB)).perm permB
    refine ⟨settledA.stats.trans settledB.stats.symm, fun place leads name => ⟨?_, ?_⟩, ?_⟩
    · exact settledA.name_or leads name
    · exact fun path only => settledA.name_eq settledB leads only
    · intro separate
      exact ⟨settledA.confined.cwd.trans settledB.confined.cwd.symm,
        settledA.tree_eq settledB separate⟩

/-- Two files with a name in common, each with a name of its own, and one that is no definition. -/
private def twoFilesTree : Tree where
  root := .dir [("work", .dir
    [("a.yml", .file "P:\n  A: \x7bkey: both\x7d\n  B: \x7bkey: first\x7d\n".toUTF8),
      ("b.yml", .file "P:\n  C: \x7bkey: second\x7d\n  D: \x7bkey: both\x7d\n".toUTF8),
      ("c.yml", .file "P: 1\n".toUTF8), ("out", .dir [])])]
  cwd := ["work"]

theorem interleavings_agree_twoFiles :
    let paths := ["a.yml", "b.yml", "c.yml"]
    let out := ["work", "out"]
    twoFilesTree.Unlinked "out" ∧ Apart "out" twoFilesTree paths ∧
      ∃ a b, RunState.Interleaves "out" twoFilesTree paths a ∧
        RunState.Interleaves "out" twoFilesTree paths.reverse b ∧
        a.stats = b.stats ∧ a.stats = ⟨3, 1, 2, 4, 0, 0⟩ ∧
        a.tree.node? (out ++ ["first.yml"]) = b.tree.node? (out ++ ["first.yml"]) ∧
        a.tree.readText "out/both.yml" = .ok "question: D\n" ∧
        b.tree.readText "out/both.yml" = .ok "question: A\n" := by
  intro paths out
  have leads : twoFilesTree.outputPlace? "out" = some out := rfl
  have unlinked : twoFilesTree.Unlinked "out" := by
    intro place hplace name target there
    obtain rfl := Option.some.inj (leads.symm.trans hplace)
    cases there
  have apart : Apart "out" twoFilesTree paths := by
    have names : ∀ path ∈ paths, ∀ other ∈ paths, ∀ r ∈ Definition.recordsAt twoFilesTree other,
        twoFilesTree.target? (joinPath "out" r.filename) ≠ twoFilesTree.target? path := by
      decide +kernel
    intro path hpath other hother r hr _ place stands input
    exact names path hpath other hother r hr (stands.trans input.symm)
  have own : ∀ other ∈ paths, Definition.Names twoFilesTree other "first.yml" →
      other = "a.yml" := by
    have names : ∀ other ∈ paths, ∀ r ∈ Definition.recordsAt twoFilesTree other,
        r.filename = "first.yml" → other = "a.yml" := by decide +kernel
    rintro other hother ⟨r, hr, named⟩
    exact names other hother r hr named
  obtain ⟨runs, agree⟩ := interleavings_agree unlinked apart
  obtain ⟨a, runA, treeA, statsA⟩ := runs paths false 2 (.refl _)
  obtain ⟨b, runB, treeB, _⟩ := runs paths.reverse false 1 paths.reverse_perm
  obtain ⟨stats, names, _⟩ := agree _ _ a b (.refl _) paths.reverse_perm runA runB
  refine ⟨unlinked, apart, a, b, runA, runB, stats, ?_, ?_, ?_, ?_⟩
  · rw [statsA]
    decide +kernel
  · exact (names out leads "first.yml").2 "a.yml" own
  · rw [treeA]
    decide +kernel
  · rw [treeB]
    decide +kernel

end Questionnaire
