import Questionnaire.Proofs.Files.Output
import Questionnaire.Proofs.Run.Interleaving
import Questionnaire.Proofs.Run.Output

/-!
What a run can touch. A record is written below the output directory under one name, which no input
can turn into another path (`isOutputName_ofQuestion`). If the directory holds no links, each action
of a run leaves everything alone but the files of such names in it (`Confined`), and so does the
whole run, whatever its files hold and however they are interleaved (`run_confined`).
-/
namespace Questionnaire
open Files
open Files.Entry (SameFrame)
open Files.Tree (outputPlace?_sameFrame accepts_sameFrame unlinked_sameFrame)

/-- The name of an output file: one step of a path that ends with the extension. -/
structure IsOutputName (name : String) : Prop extends IsName name where
  noBackslash : '\\' ∉ name.toList
  extension : ∃ stem, stem ≠ "" ∧ name = stem ++ Record.fileExtension

namespace Record
variable {t : Tree} {root : String} {r : Record}

theorem isOutputName_ofQuestion {page : String} {q : Question} (h : ofQuestion page q = .ok r) :
    IsOutputName r.filename := by
  obtain ⟨_, _, stem, _, _, hstem, rfl⟩ := ofQuestion_eq_ok.mp h
  have fits := (stemOf_eq_ok.mp hstem).2
  obtain ⟨filled, _, _, _, noBackslash⟩ := isStem_iff.mp fits
  refine ⟨isName_stem fits, ?_, stem, filled, rfl⟩
  rw [String.toList_append, List.mem_append]
  rintro (h | h)
  · exact noBackslash h
  · exact absurd h (by decide)

/-- Can this record be written below a root? -/
def fits (t : Tree) (root : String) (r : Record) : Bool :=
  r.text?.isSome && t.accepts root r.filename

theorem fits_sameFrame {t' : Tree} (same : SameFrame t.root t'.root) (cwd : t'.cwd = t.cwd) :
    r.fits t' root = r.fits t root := by
  rw [fits, fits, accepts_sameFrame same cwd]

theorem attempt_of_fits (unlinked : t.Unlinked root) (hname : IsName r.filename)
    (fit : r.fits t root) : ∃ place text, t.outputPlace? root = some place ∧
      r.text? = some text ∧ t.node? (place ++ [r.filename]) ≠ some .dir ∧
      r.attempt root t =
        (.ok (joinPath root r.filename), t.put (place ++ [r.filename]) (.file text.toUTF8)) := by
  rw [fits, Bool.and_eq_true, Option.isSome_iff_exists] at fit
  obtain ⟨⟨text, htext⟩, accepted⟩ := fit
  obtain ⟨place, leads, _, notDir⟩ := Tree.accepts_eq_true.mp accepted
  refine ⟨place, text, leads, htext, notDir, ?_⟩
  rw [attempt_written (eq_ok_of_toOption htext),
    Tree.writeText_of_accepts unlinked hname leads accepted]

theorem attempt_of_not_fits (hname : IsName r.filename) (unfit : r.fits t root = false) :
    ∃ e, r.attempt root t = (.error e, t) := by
  cases hw : Yaml.Mapping.write r.fields with
  | error e => exact ⟨.serialize r.filename e, attempt_unwritten hw⟩
  | ok text =>
    have refused : t.accepts root r.filename = false := by
      simpa [fits, text?, hw, Except.toOption] using unfit
    obtain ⟨e, failed⟩ := Tree.writeText_of_not_accepts hname refused text
    exact ⟨.write (joinPath root r.filename) e, by rw [attempt_written hw, failed]⟩

theorem isOk_attempt (unlinked : t.Unlinked root) (hname : IsName r.filename) :
    WriteResult.isOk (r.attempt root t).1 = r.fits t root := by
  cases fit : r.fits t root with
  | true =>
    obtain ⟨place, text, _, _, _, done⟩ := attempt_of_fits unlinked hname fit
    rw [done]
    rfl
  | false =>
    obtain ⟨e, failed⟩ := attempt_of_not_fits hname fit
    rw [failed]
    rfl

theorem node?_attempt (unlinked : t.Unlinked root) (hname : IsName r.filename)
    {place : List String} (leads : t.outputPlace? root = some place) (name : String) :
    (r.attempt root t).2.node? (place ++ [name]) =
      if r.fits t root && r.filename == name then r.text?.map fun text => .file text.toUTF8
      else t.node? (place ++ [name]) := by
  cases fit : r.fits t root with
  | false =>
    obtain ⟨e, failed⟩ := attempt_of_not_fits hname fit
    rw [failed]
    rfl
  | true =>
    obtain ⟨q, text, hq, htext, notDir, done⟩ := attempt_of_fits unlinked hname fit
    obtain rfl := Option.some.inj (hq.symm.trans leads)
    obtain ⟨_, node⟩ := Tree.frame_put leads unlinked notDir text.toUTF8
    rw [done, node, htext]
    by_cases same : r.filename = name
    · simp [same]
    · have apart : name ≠ r.filename := fun h => same h.symm
      simp [same, apart]

end Record

/-- Directories and links are as before, no file is gone, and only files with an output name in the
directory of the root are new or have changed. -/
structure Confined (root : String) (t after : Tree) : Prop where
  cwd : after.cwd = t.cwd
  dirs : ∀ q, after.node? q = some .dir ↔ t.node? q = some .dir
  links : ∀ q target, after.node? q = some (.link target) ↔ t.node? q = some (.link target)
  others : ∀ q, (∀ place name, t.outputPlace? root = some place → IsOutputName name →
    q ≠ place ++ [name]) → after.node? q = t.node? q
  kept : ∀ q, t.node? q ≠ none → after.node? q ≠ none

namespace Confined
variable {root : String} {t s u : Tree}

theorem frame (h : Confined root t s) : SameFrame t.root s.root := by
  intro q
  change (t.node? q).bind Entry.Node.leading? = (s.node? q).bind Entry.Node.leading?
  cases ht : t.node? q with
  | none =>
    cases hs : s.node? q with
    | none => rfl
    | some n =>
      cases n with
      | file c => rfl
      | dir => rw [(h.dirs q).mp hs] at ht; cases ht
      | link target => rw [(h.links q target).mp hs] at ht; cases ht
  | some n =>
    cases n with
    | dir => rw [(h.dirs q).mpr ht]
    | link target => rw [(h.links q target).mpr ht]
    | file c =>
      cases hs : s.node? q with
      | none => rfl
      | some n =>
        cases n with
        | file c => rfl
        | dir => rw [(h.dirs q).mp hs] at ht; cases ht
        | link target => rw [(h.links q target).mp hs] at ht; cases ht

theorem refl : Confined root t t :=
  ⟨rfl, fun _ => .rfl, fun _ _ => .rfl, fun _ _ => rfl, fun _ h => h⟩

theorem trans (first : Confined root t s) (second : Confined root s u) : Confined root t u := by
  refine ⟨second.cwd.trans first.cwd, fun q => (second.dirs q).trans (first.dirs q),
    fun q target => (second.links q target).trans (first.links q target), fun q other => ?_,
    fun q there => second.kept q (first.kept q there)⟩
  refine (second.others q ?_).trans (first.others q other)
  rw [outputPlace?_sameFrame first.frame first.cwd]
  exact other

theorem attempt (unlinked : t.Unlinked root) {r : Record} (hname : IsOutputName r.filename) :
    Confined root t (r.attempt root t).2 := by
  cases fit : r.fits t root with
  | false =>
    obtain ⟨e, he⟩ := Record.attempt_of_not_fits hname.toIsName fit
    rw [he]
    exact refl
  | true =>
    obtain ⟨place, text, leads, _, notDir, done⟩ :=
      Record.attempt_of_fits unlinked hname.toIsName fit
    obtain ⟨frame, node⟩ := Tree.frame_put leads unlinked notDir text.toUTF8
    rw [done]
    refine ⟨rfl, Tree.node?_eq_dir_sameFrame frame, Tree.node?_eq_link_sameFrame frame,
      fun q other => ?_, fun q there => ?_⟩
    · rw [node, if_neg (other place r.filename leads hname)]
    · rw [node]
      split
      · exact Option.some_ne_none _
      · exact there

end Confined

namespace FileTask

/-- What waits to be written comes from questions. -/
theorem isOutputName_records {f : FileTask} {r : Record} (h : r ∈ f.records) :
    IsOutputName r.filename := by
  obtain ⟨o, ho, hr⟩ := List.mem_flatMap.mp h
  obtain ⟨i, hi, rfl⟩ := List.mem_iff_getElem.mp ho
  simp only [outcomes, List.getElem_zipWith] at hr
  obtain ⟨result, hresult, hok⟩ := List.mem_filterMap.mp hr
  obtain ⟨q, _, made⟩ := List.mem_map.mp hresult
  exact Record.isOutputName_ofQuestion (made.trans (eq_ok_of_toOption hok))

end FileTask

namespace RunState
variable {root : String} {t : Tree} {s s' : RunState}

theorem step_confined (unlinked : s.tree.Unlinked root) (step : Step root s s') :
    Confined root s.tree s'.tree := by
  cases step with
  | read _ => exact .refl
  | number _ => exact .refl
  | write next =>
    exact .attempt unlinked (FileTask.isOutputName_records (List.mem_of_getElem? next))

theorem steps_confined (unlinked : s.tree.Unlinked root) (steps : Steps root s s') :
    Confined root s.tree s'.tree := by
  induction steps with
  | refl => exact .refl
  | tail _ step ih =>
    exact ih.trans (step_confined (unlinked_sameFrame ih.frame ih.cwd unlinked) step)

end RunState

/-- The tree of a run is one that an interleaving comes to. -/
theorem run_steps (config : Config) (t : Tree) :
    ∃ paths s, RunState.Steps config.outputRoot (.start t paths) s ∧
      s.tree = (run config t).tree := by
  have root : config.normalized.outputRoot = config.outputRoot := rfl
  have idle : ∃ paths s, RunState.Steps config.outputRoot (.start t paths) s ∧ s.tree = t :=
    ⟨[], _, .refl, rfl⟩
  rw [run]
  split
  · exact idle
  · exact idle
  · rename_i files _ _
    split
    · exact idle
    · obtain ⟨s, interleaves, tree, _, _⟩ := runFiles_interleaves config.outputRoot
        config.normalized.verboseLogging config.normalized.maxConcurrentFiles t files
      exact ⟨files, s, interleaves.steps, tree⟩

/-- A run writes to nothing but files with output names in the output directory, whatever the order
of its actions is and wherever it has come to. -/
theorem run_confined (config : Config) (t : Tree) :
    let root := config.outputRoot
    (∀ paths s, RunState.Steps root (.start t paths) s →
        (∀ f ∈ s.files, ∀ r ∈ f.records, IsOutputName r.filename ∧
          components (joinPath root r.filename) = steps root ++ [.name r.filename]) ∧
        (t.Unlinked root → Confined root t s.tree)) ∧
      (∃ paths s, RunState.Steps root (.start t paths) s ∧ s.tree = (run config t).tree) ∧
      (t.Unlinked root → Confined root t (run config t).tree) := by
  intro root
  obtain ⟨paths, s, reached, tree⟩ := run_steps config t
  refine ⟨fun paths s reached => ⟨fun f _ r hr => ?_, fun unlinked => ?_⟩,
    ⟨paths, s, reached, tree⟩, fun unlinked => ?_⟩
  · have name := FileTask.isOutputName_records hr
    exact ⟨name, components_below name.toIsName⟩
  · exact RunState.steps_confined unlinked reached
  · rw [← tree]
    exact RunState.steps_confined unlinked reached

/-- A key that would lead out of the output directory, written and merged in, and two that name files
in it, of which one is a directory there. -/
private def hostileTree : Tree where
  root := .dir [("evil.yml", .file "root\n".toUTF8), ("work", .dir
    [("in.yml", .file ("P:\n  A: &a \x7bkey: ../evil\x7d\n  B: \x7b<<: *a\x7d\n" ++
        "  C: \x7bkey: 17\x7d\n  D: \x7bkey: true\x7d\n").toUTF8),
      ("out", .dir [("true.yml", .dir [])])])]
  cwd := ["work"]

theorem run_confined_hostile :
    let config : Config := { inputRoot := ".", outputRoot := "out" }
    let after := (run config hostileTree).tree
    hostileTree.Unlinked "out" ∧ Confined "out" hostileTree after ∧
      after.node? ["evil.yml"] = some (.file "root\n".toUTF8) ∧
      (after.node? ["work", "out", "17.yml"]).isSome := by
  intro config after
  have leads : hostileTree.outputPlace? "out" = some ["work", "out"] := rfl
  have unlinked : hostileTree.Unlinked "out" := by
    intro place hplace name target there
    obtain rfl := Option.some.inj (leads.symm.trans hplace)
    by_cases hname : name = "true.yml"
    · subst hname
      cases there
    · have absent : hostileTree.node? (["work", "out"] ++ [name]) = none := by
        have apart : ("true.yml" == name) = false := by simpa using Ne.symm hname
        simp [hostileTree, Tree.node?, Entry.node?, Entry.at?, Entry.child?, apart]
      rw [absent] at there
      cases there
  have confined := (run_confined config hostileTree).2.2 unlinked
  have outside : ∀ place name, hostileTree.outputPlace? "out" = some place → IsOutputName name →
      ["evil.yml"] ≠ place ++ [name] := by
    intro place name hplace _
    obtain rfl := Option.some.inj (leads.symm.trans hplace)
    simp
  exact ⟨unlinked, confined, (confined.others _ outside).trans rfl, by decide +kernel⟩

end Questionnaire
