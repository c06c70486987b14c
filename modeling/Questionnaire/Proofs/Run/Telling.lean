import Questionnaire.Proofs.Run.Siblings
import Questionnaire.Proofs.Run.Skipped

/-!
What a file tells while it is worked on: page after page each question that is skipped and then the
names of the files to come, and after all pages how the writes have ended. So the notices of each
level can be counted against the counts of the file, and a name is told before any write has ended
(`runFile_told`).
-/
namespace Questionnaire
open Files

namespace Notice

/-- The names of files to come. -/
def filenames : Notice → List String
  | .progress _ names => names
  | _ => []

/-- Is it told how a write has ended? -/
def isResult : Notice → Bool
  | .written _ | .writeFailed _ => true
  | _ => false

/-- How many notices have this level. -/
def count (level : Level) (log : List Notice) : Nat := log.countP (·.level == level)

theorem count_append (level : Level) (log log' : List Notice) :
    count level (log ++ log') = count level log + count level log' := List.countP_append

theorem mem_filenames {notice : Notice} {name : String} :
    name ∈ notice.filenames ↔ ∃ context names, notice = .progress context names ∧ name ∈ names := by
  cases notice <;> simp [filenames]

end Notice
open Notice

/-- What is told of a page: why there is no record of a question, for each such question, and then
the names that the others give their files. -/
def Page.Tells (p : Page) (context : PageContext) (block : List Notice) : Prop :=
  ∃ warnings names, block = warnings ++ [.progress context names] ∧
    List.Forall₂ (fun q w => ∃ e, Record.ofQuestion p.name q = .error e ∧
      w = Notice.questionSkipped context e) (p.questions.filter (!p.transforms ·)) warnings ∧
    List.Forall₂ (fun q name => ∃ r, Record.ofQuestion p.name q = .ok r ∧ name = r.filename)
      (p.questions.filter p.transforms) names

/-- What is told of a write. -/
inductive WriteResult.Tells : Except Error String → Notice → Prop
  | written (path : String) : Tells (.ok path) (.written path)
  | failed (e : Error) : Tells (.error e) (.writeFailed e)

section Blocks
variable (p : Page) (context : PageContext)

theorem Page.forall₂_errors : List.Forall₂ (fun q e => Record.ofQuestion p.name q = .error e)
    (p.questions.filter (!p.transforms ·)) p.errors := by
  rw [errors, results]
  induction p.questions with
  | nil => exact .nil
  | cons q qs ih =>
    rw [List.map_cons, List.filter_cons, transforms]
    cases made : Record.ofQuestion p.name q with
    | ok r => exact ih
    | error e => exact .cons made ih

theorem Page.tells_run : p.Tells context (p.run context).log := by
  refine ⟨_, _, rfl, ?_, ?_⟩
  · rw [List.forall₂_map_right_iff]
    exact p.forall₂_errors.imp fun q e fails => ⟨e, fails, rfl⟩
  · rw [List.forall₂_map_right_iff]
    exact p.forall₂_records.imp fun q r made => ⟨r, made, rfl⟩

theorem Page.filenames_run :
    (p.run context).log.flatMap filenames = p.records.map (·.filename) := by
  rw [run, List.flatMap_append, List.flatMap_map]
  simp [filenames]

theorem Page.not_isResult {notice : Notice} (told : notice ∈ (p.run context).log) :
    ¬ notice.isResult := by
  rcases List.mem_append.mp told with skipped | progress
  · obtain ⟨e, _, rfl⟩ := List.mem_map.mp skipped
    exact Bool.false_ne_true
  · obtain rfl := List.mem_singleton.mp progress
    exact Bool.false_ne_true

theorem Page.count_run (level : Level) : count level (p.run context).log =
    match level with
    | .error => 0
    | .warn => (p.run context).skipped
    | .info => 1 := by
  rw [run, count_append, count, List.countP_map]
  cases level <;> simp [count, Function.comp_def, Notice.level]

end Blocks

section Pages
variable (source : String) (n : Nat) (ps : List Page)

theorem runPages_tells : List.Forall₂ (fun e block => e.1.Tells ⟨e.2 + 1, e.1.name, source⟩ block)
    (ps.zipIdx n) ((runPages source n ps).map (·.log)) := by
  induction ps generalizing n with
  | nil => exact .nil
  | cons p ps ih => exact .cons (p.tells_run _) (ih (n + 1))

theorem runPages_filenames : ((runPages source n ps).flatMap (·.log)).flatMap filenames =
    (Definition.records ⟨ps⟩).map (·.filename) := by
  rw [← runPages_records source n]
  induction ps generalizing n with
  | nil => rfl
  | cons p ps ih =>
    rw [runPages, List.flatMap_cons, List.flatMap_append, p.filenames_run, ih, List.flatMap_cons,
      List.map_append]
    rfl

theorem runPages_count (level : Level) :
    count level ((runPages source n ps).flatMap (·.log)) = match level with
      | .error => 0
      | .warn => (runPages source n ps).foldr (fun o n => o.skipped + n) 0
      | .info => (runPages source n ps).length := by
  induction ps generalizing n with
  | nil => cases level <;> rfl
  | cons p ps ih =>
    rw [runPages, List.flatMap_cons, count_append, p.count_run, ih]
    cases level with
    | error => rfl
    | warn => rfl
    | info => exact Nat.add_comm _ _

theorem runPages_not_isResult {notice : Notice}
    (told : notice ∈ (runPages source n ps).flatMap (·.log)) : ¬ notice.isResult := by
  induction ps generalizing n with
  | nil => cases told
  | cons p ps ih =>
    rw [runPages, List.flatMap_cons] at told
    rcases List.mem_append.mp told with first | rest
    · exact p.not_isResult _ first
    · exact ih (n + 1) rest

end Pages

section Writes
variable (verbose : Bool) (ws : List (Except Error String))

theorem notices_tells : List.Forall₂ WriteResult.Tells
    (ws.filter fun w => verbose || !WriteResult.isOk w)
    (ws.flatMap (WriteResult.notices verbose)) := by
  induction ws with
  | nil => exact .nil
  | cons w ws ih =>
    rw [List.flatMap_cons]
    cases w with
    | error e => cases verbose <;> exact .cons (.failed e) ih
    | ok path =>
      cases verbose with
      | false => exact ih
      | true => exact .cons (.written path) ih

theorem notices_count (level : Level) : count level (ws.flatMap (WriteResult.notices verbose)) =
    match level with
    | .error => ws.countP fun w => !WriteResult.isOk w
    | .warn => 0
    | .info => if verbose then ws.countP WriteResult.isOk else 0 := by
  induction ws with
  | nil => cases level <;> cases verbose <;> rfl
  | cons w ws ih =>
    rw [List.flatMap_cons, count_append, ih]
    cases w <;> cases level <;> cases verbose <;>
      simp [count, WriteResult.notices, WriteResult.isOk, Notice.level, List.countP_cons,
        Nat.add_comm]

end Writes

/-- The writes of a file are told behind everything about its pages. -/
theorem append_of_isResult {pages results before after : List Notice} {result : Notice}
    (quiet : ∀ notice ∈ pages, ¬ notice.isResult) (told : result.isResult)
    (split : pages ++ results = before ++ result :: after) :
    ∃ early, before = pages ++ early := by
  rcases List.append_eq_append_iff.mp split with ⟨early, rfl, _⟩ | ⟨mid, rfl, tail⟩
  · exact ⟨early, rfl⟩
  · -- Nothing that is told of the pages is a result, so the split is at their end.
    cases mid with
    | nil => exact ⟨[], by simp⟩
    | cons notice mid =>
      obtain ⟨rfl, _⟩ := List.cons.inj tail
      exact absurd told (quiet result (by simp))

theorem finishFile_count (root : String) (verbose : Bool) (t : Tree) (n : Nat) (path : String)
    (level : Level) (definition : Except Error Definition) :
    let file := finishFile root verbose t n path definition
    count level file.log = match level with
      | .error => file.stats.filesFailed + file.stats.writesFailed
      | .warn => file.stats.questionsSkipped
      | .info => file.stats.pages + if verbose then file.stats.questionsWritten else 0 := by
  intro file
  cases definition with
  | error e => cases level <;> cases verbose <;> rfl
  | ok d =>
    have told : count level file.log = _ := count_append level _ _
    rw [told, runPages_count, notices_count]
    cases level with
    | error => rfl
    | warn => exact Nat.add_zero _
    | info => rfl

/-- What a file tells, in its order, and what it counts. -/
theorem runFile_told (root : String) (verbose : Bool) (t : Tree) (n : Nat) (path : String) :
    let file := runFile root verbose t n path
    (∀ e, Definition.load t path = .error e → file.log = [.fileSkipped e]) ∧
    (∀ d, Definition.load t path = .ok d →
      let writes := Record.attemptAll root t d.records
      file.tree = writes.2 ∧
        (∃ blocks results, file.log = blocks.flatten ++ results ∧
          List.Forall₂ (fun e block => e.1.Tells ⟨e.2 + 1, e.1.name, path⟩ block)
            (d.pages.zipIdx n) blocks ∧
          blocks.flatten.flatMap filenames = d.records.map (·.filename) ∧
          List.Forall₂ WriteResult.Tells
            (writes.1.filter fun w => verbose || !WriteResult.isOk w) results) ∧
        ∀ before result after, file.log = before ++ result :: after → result.isResult →
          ∀ r ∈ d.records, ∃ context names,
            .progress context names ∈ before ∧ r.filename ∈ names) ∧
    count .warn file.log = file.stats.questionsSkipped ∧
    count .error file.log = file.stats.filesFailed + file.stats.writesFailed ∧
    count .info file.log =
      file.stats.pages + if verbose then file.stats.questionsWritten else 0 := by
  intro file
  have counted := fun level => finishFile_count root verbose t n path level (Definition.load t path)
  refine ⟨fun e fails => ?_, fun d loaded => ?_, counted .warn, counted .error, counted .info⟩
  · simp only [file, runFile_of_error fails]
  · intro writes
    let pages := (runPages path n d.pages).map (·.log)
    let results := writes.1.flatMap (WriteResult.notices verbose)
    have names : pages.flatten.flatMap filenames = d.records.map (·.filename) :=
      runPages_filenames path n d.pages
    have done : file.tree = writes.2 ∧ file.log = pages.flatten ++ results := by
      simp only [file, runFile, loaded, finishFile, runPages_records]
      exact ⟨rfl, rfl⟩
    obtain ⟨tree, log⟩ := done
    refine ⟨tree, ⟨pages, results, log, runPages_tells path n d.pages, names,
      notices_tells verbose writes.1⟩, fun before result after split told r hr => ?_⟩
    have quiet : ∀ notice ∈ pages.flatten, ¬ notice.isResult :=
      fun _ => runPages_not_isResult path n d.pages
    obtain ⟨early, rfl⟩ := append_of_isResult quiet told (log.symm.trans split)
    have listed : r.filename ∈ pages.flatten.flatMap filenames := by
      rw [names]
      exact List.mem_map_of_mem hr
    obtain ⟨notice, there, name⟩ := List.mem_flatMap.mp listed
    obtain ⟨context, names, rfl, name⟩ := mem_filenames.mp name
    exact ⟨context, names, List.mem_append_left early there, name⟩

/-- A page with a name that is used twice, one that a directory has and a question without any, and
a page without questions. -/
private def toldTree : Tree where
  root := .dir [("in.yml", .file ("P:\n  A: \x7bkey: 17\x7d\n  B: \x7b\x7d\n" ++
      "  C: \x7bkey: true\x7d\n  D: \x7bkey: '17'\x7d\nQ: \x7b\x7d\n").toUTF8),
    ("true.yml", .dir [])]
  cwd := []

theorem runFile_told_mixed :
    let file := runFile "" true toldTree 4 "in.yml"
    file.log.map (·.level) = [.warn, .info, .info, .info, .error, .info] ∧
      file.log.flatMap filenames = ["17.yml", "true.yml", "17.yml"] ∧
      file.stats = ⟨1, 0, 2, 2, 1, 1⟩ ∧ count .info file.log = 2 + 2 ∧
      ∀ before result after, file.log = before ++ result :: after → result.isResult →
        ∃ context names, .progress context names ∈ before ∧ "true.yml" ∈ names := by
  intro file
  let d : Definition := ⟨[⟨"P", [⟨"A", .map [(.str "key", .num (.int 17))]⟩, ⟨"B", .map []⟩,
    ⟨"C", .map [(.str "key", .bool true)]⟩, ⟨"D", .map [(.str "key", .str "17")]⟩]⟩, ⟨"Q", []⟩]⟩
  have loaded : Definition.load toldTree "in.yml" = .ok d := eq_ok_of_toOption (by decide +kernel)
  have told : (file.log.map (·.level), file.log.flatMap filenames, file.stats) =
      ([.warn, .info, .info, .info, .error, .info], ["17.yml", "true.yml", "17.yml"],
        ⟨1, 0, 2, 2, 1, 1⟩) := by decide +kernel
  obtain ⟨levels, told⟩ := Prod.mk.inj told
  obtain ⟨listed, stats⟩ := Prod.mk.inj told
  obtain ⟨_, whole, _, _, infos⟩ := runFile_told "" true toldTree 4 "in.yml"
  obtain ⟨_, _, names⟩ := whole d loaded
  obtain ⟨r, hr, name⟩ : ∃ r ∈ d.records, r.filename = "true.yml" := by decide +kernel
  refine ⟨levels, listed, stats, ?_, fun before result after split told => ?_⟩
  · rw [infos, stats]
    rfl
  · rw [← name]
    exact names before result after split told r hr

end Questionnaire
