import Mathlib.Data.List.Forall2
import Questionnaire.Proofs.Run.Attempts

/-!
The questions of a page next to each other. A page sorts its questions into those with a record and
those without (`forall₂_records`, `length_records_add_skipped`). A question without a record leaves
a warning and a count, and nothing else: with it the page comes to the same (`run_insert`), and so
does the file (`finishFile_insert`). A write that fails leaves nothing at all, in whatever order the
records are written (`page_siblings`).
-/
namespace Questionnaire
open Files

namespace Page
variable {p : Page} {q : Question} {e : Error} {i : Nat}

/-- Is there a record of this question? -/
def transforms (p : Page) (q : Question) : Bool := (Record.ofQuestion p.name q).isOk

/-- The page with one question more, in front of the `i`-th one. -/
def insert (p : Page) (i : Nat) (q : Question) : Page :=
  { p with questions := p.questions.insertIdx i q }

theorem forall₂_records (p : Page) :
    List.Forall₂ (fun q r => Record.ofQuestion p.name q = .ok r)
      (p.questions.filter p.transforms) p.records := by
  rw [records, results]
  induction p.questions with
  | nil => exact .nil
  | cons q qs ih =>
    cases made : Record.ofQuestion p.name q with
    | ok r =>
      have kept : p.transforms q = true := by rw [transforms, made]; rfl
      rw [List.filter_cons_of_pos kept, List.map_cons, made]
      exact .cons made ih
    | error e =>
      have left : ¬ p.transforms q = true := by rw [transforms, made]; exact Bool.false_ne_true
      rw [List.filter_cons_of_neg left, List.map_cons, made]
      exact ih

theorem length_errors_eq (p : Page) : p.errors.length = p.questions.countP (!p.transforms ·) := by
  rw [length_errors, results, List.countP_map]
  rfl

theorem length_records_add_skipped (p : Page) :
    p.records.length + p.errors.length = p.questions.length := by
  have records : p.records.length = p.questions.countP p.transforms := by
    rw [← p.forall₂_records.length_eq, List.countP_eq_length_filter]
  rw [records, length_errors_eq, List.length_eq_countP_add_countP p.transforms]
  simp

theorem isName_records {r : Record} (h : r ∈ p.records) : IsName r.filename := by
  obtain ⟨result, hresult, hr⟩ := List.mem_filterMap.mp h
  obtain ⟨q, _, made⟩ := List.mem_map.mp hresult
  exact Record.isName_ofQuestion (made.trans (eq_ok_of_toOption hr))

theorem results_insert (fails : Record.ofQuestion p.name q = .error e)
    (within : i ≤ p.questions.length) :
    ∃ early late, p.results = early ++ late ∧
      (p.insert i q).results = early ++ .error e :: late := by
  obtain ⟨before, after, parts, _, inserted⟩ := List.exists_of_modifyTailIdx (List.cons q) within
  refine ⟨before.map (Record.ofQuestion p.name), after.map (Record.ofQuestion p.name), ?_, ?_⟩
  · rw [results, parts, List.map_append]
  · rw [results, insert, List.insertIdx, inserted, List.map_append, List.map_cons, fails]

theorem records_insert (fails : Record.ofQuestion p.name q = .error e)
    (within : i ≤ p.questions.length) : (p.insert i q).records = p.records := by
  obtain ⟨early, late, less, more⟩ := results_insert fails within
  rw [records, records, less, more, List.filterMap_append, List.filterMap_append]
  rfl

theorem errors_insert (fails : Record.ofQuestion p.name q = .error e)
    (within : i ≤ p.questions.length) :
    ∃ early late, p.errors = early ++ late ∧ (p.insert i q).errors = early ++ e :: late := by
  obtain ⟨early, late, less, more⟩ := results_insert fails within
  rw [errors, errors, less, more, List.filterMap_append, List.filterMap_append]
  exact ⟨_, _, rfl, rfl⟩

/-- With a question that is skipped a page has the same records and tells the same of them. -/
theorem run_insert (fails : Record.ofQuestion p.name q = .error e)
    (within : i ≤ p.questions.length) (context : PageContext) :
    ((p.insert i q).run context).records = (p.run context).records ∧
      ((p.insert i q).run context).skipped = (p.run context).skipped + 1 ∧
      ∃ early late, (p.run context).log =
          early ++ late ++ [.progress context (p.records.map (·.filename))] ∧
        ((p.insert i q).run context).log = early ++ .questionSkipped context e :: late ++
          [.progress context (p.records.map (·.filename))] := by
  have records := records_insert fails within
  obtain ⟨early, late, less, more⟩ := errors_insert fails within
  refine ⟨records, ?_, ?_⟩
  · simp only [run, less, more, List.length_append, List.length_cons]
    omega
  · simp only [run, less, more, records, List.map_append, List.map_cons]
    exact ⟨_, _, rfl, rfl⟩

end Page

/-- The counts of a question without a record. -/
def Stats.skipQuestion : Stats := { questionsSkipped := 1 }

theorem runPages_append (source : String) (n : Nat) (ps qs : List Page) :
    runPages source n (ps ++ qs) = runPages source n ps ++ runPages source (n + ps.length) qs := by
  induction ps generalizing n with
  | nil => rfl
  | cons p ps ih =>
    rw [List.cons_append, runPages, runPages, ih, List.length_cons, List.cons_append,
      Nat.add_right_comm, Nat.add_assoc]

theorem foldr_skipped_succ (os : List PageOutcome) (m : Nat) :
    os.foldr (fun o n => o.skipped + n) (m + 1) = os.foldr (fun o n => o.skipped + n) m + 1 := by
  induction os with
  | nil => rfl
  | cons o os ih => rw [List.foldr_cons, List.foldr_cons, ih, Nat.add_assoc]

/-- With a question that is skipped a file comes to the same tree, and to the same log and counts
but for that question. -/
theorem finishFile_insert {p : Page} {q : Question} {e : Error} {i : Nat}
    (fails : Record.ofQuestion p.name q = .error e) (within : i ≤ p.questions.length)
    (root : String) (verbose : Bool) (t : Tree) (n : Nat) (path : String) (ps qs : List Page) :
    let less := finishFile root verbose t n path (.ok ⟨ps ++ p :: qs⟩)
    let more := finishFile root verbose t n path (.ok ⟨ps ++ p.insert i q :: qs⟩)
    more.tree = less.tree ∧ more.pages = less.pages ∧
      more.stats = less.stats.merge Stats.skipQuestion ∧
      ∃ early late, less.log = early ++ late ∧
        more.log = early ++ .questionSkipped ⟨n + ps.length + 1, p.name, path⟩ e :: late := by
  intro less more
  let context : PageContext := ⟨n + ps.length + 1, p.name, path⟩
  obtain ⟨records, skipped, early, late, toldLess, toldMore⟩ :=
    Page.run_insert fails within context
  let outcomes := runPages path n ps
  let others := runPages path (n + ps.length + 1) qs
  have without : runPages path n (ps ++ p :: qs) = outcomes ++ p.run context :: others :=
    runPages_append path n ps (p :: qs)
  have inserted : runPages path n (ps ++ p.insert i q :: qs) =
      outcomes ++ (p.insert i q).run context :: others := runPages_append path n ps _
  have same : (runPages path n (ps ++ p.insert i q :: qs)).flatMap (·.records) =
      (runPages path n (ps ++ p :: qs)).flatMap (·.records) := by
    rw [without, inserted]
    simp only [List.flatMap_append, List.flatMap_cons, records]
  simp only [less, more, finishFile, same]
  refine ⟨trivial, ?_, ?_, ?_⟩
  · simp only [List.length_append, List.length_cons]
  · have pages : (runPages path n (ps ++ p.insert i q :: qs)).length =
        (runPages path n (ps ++ p :: qs)).length := by
      rw [without, inserted, List.length_append, List.length_append]
      rfl
    have counted : (runPages path n (ps ++ p.insert i q :: qs)).foldr
          (fun o n => o.skipped + n) 0 =
        (runPages path n (ps ++ p :: qs)).foldr (fun o n => o.skipped + n) 0 + 1 := by
      rw [without, inserted, List.foldr_append, List.foldr_append, List.foldr_cons, List.foldr_cons,
        skipped, ← foldr_skipped_succ]
      congr 1
      omega
    simp only [fileStats, pages, counted]
    rfl
  · simp only [without, inserted, List.flatMap_append, List.flatMap_cons, toldLess, toldMore,
      List.append_assoc, List.cons_append]
    exact ⟨outcomes.flatMap (·.log) ++ early, _, (List.append_assoc ..).symm,
      (List.append_assoc ..).symm⟩

theorem WriteResult.isOk_eq_false {w : Except Error String} :
    WriteResult.isOk w = false ↔ ∃ e, w = .error e := by
  cases w <;> simp [WriteResult.isOk]

/-- What becomes of one question of a page does not matter to the others. -/
theorem page_siblings (p : Page) (context : PageContext) :
    let outcome := p.run context
    (List.Forall₂ (fun q r => Record.ofQuestion p.name q = .ok r)
        (p.questions.filter p.transforms) outcome.records ∧
      outcome.skipped = p.questions.countP (!p.transforms ·) ∧
      outcome.records.length + outcome.skipped = p.questions.length) ∧
    (∀ (i : Nat) (q : Question) (e : Error), i ≤ p.questions.length →
      Record.ofQuestion p.name q = .error e →
        let more := (p.insert i q).run context
        let warning := Notice.questionSkipped context e
        let progress := Notice.progress context (outcome.records.map (·.filename))
        (more.records = outcome.records ∧ more.skipped = outcome.skipped + 1 ∧
          warning.level = .warn ∧
          ∃ early late, outcome.log = early ++ late ++ [progress] ∧
            more.log = early ++ warning :: late ++ [progress]) ∧
        ∀ root verbose t n path ps qs,
          let without := finishFile root verbose t n path (.ok ⟨ps ++ p :: qs⟩)
          let file := finishFile root verbose t n path (.ok ⟨ps ++ p.insert i q :: qs⟩)
          file.tree = without.tree ∧ file.pages = without.pages ∧
            file.stats = without.stats.merge Stats.skipQuestion ∧
            ∃ early late, without.log = early ++ late ∧
              file.log = early ++ .questionSkipped ⟨n + ps.length + 1, p.name, path⟩ e :: late) ∧
    ∀ root t order, order.Perm outcome.records →
      (∀ before r after e, order = before ++ r :: after →
        (r.attempt root (Record.attemptAll root t before).2).1 = .error e →
          ∃ early late last, early.length = before.length ∧
            Record.attemptAll root t order = (early ++ .error e :: late, last) ∧
            Record.attemptAll root t (before ++ after) = (early ++ late, last)) ∧
      (t.Unlinked root →
        (Record.attemptAll root t order).1 = order.map fun r => (r.attempt root t).1) := by
  intro outcome
  refine ⟨⟨p.forall₂_records, p.length_errors_eq, p.length_records_add_skipped⟩, ?_, ?_⟩
  · intro i q e within fails
    obtain ⟨records, skipped, told⟩ := Page.run_insert fails within context
    exact ⟨⟨records, skipped, rfl, told⟩, finishFile_insert fails within⟩
  · intro root t order perm
    constructor
    · rintro before r after e rfl failed
      obtain ⟨all, without⟩ := Record.attemptAll_without failed
      exact ⟨_, _, _, Record.length_attemptAll root t before, all, without⟩
    · intro unlinked
      exact Record.attemptAll_alone unlinked fun r hr => Page.isName_records (perm.mem_iff.mp hr)

/-- A page with a name that is used twice, one that a directory has, and a question without any. -/
private def crowdedPage : Page where
  name := "P"
  questions :=
    [⟨"A", .map [(.str "key", .str "17"), (.str "n", .bool true)]⟩,
      ⟨"B", .map [(.str "key", .bool true)]⟩, ⟨"C", .map [(.str "key", .str "17")]⟩,
      ⟨"D", .map [(.str "n", .null)]⟩]

private def crowdedTree : Tree where
  root := .dir [("work", .dir [("out", .dir [("true.yml", .dir [])])])]
  cwd := ["work"]

theorem page_siblings_crowded :
    let more := (crowdedPage.insert 1 ⟨"E", .seq []⟩).run ⟨1, "P", "in.yml"⟩
    let files := crowdedPage.records
    more.records.map (·.filename) = ["17.yml", "true.yml", "17.yml"] ∧ more.skipped = 2 ∧
      ∃ early late after e, Record.attemptAll "out" crowdedTree files =
          (early ++ .error e :: late, after) ∧
        Record.attemptAll "out" crowdedTree (files.take 1 ++ files.drop 2) =
          (early ++ late, after) := by
  intro more files
  obtain ⟨_, insertions, writes⟩ := page_siblings crowdedPage ⟨1, "P", "in.yml"⟩
  obtain ⟨⟨records, skipped, _⟩, _⟩ := insertions 1 ⟨"E", .seq []⟩ (.invalidRecord "P" "E")
    (by decide) rfl
  have names : files.map (·.filename) = ["17.yml", "true.yml", "17.yml"] := by decide +kernel
  have result : (files[1]?.map fun r => WriteResult.isOk
      (r.attempt "out" (Record.attemptAll "out" crowdedTree (files.take 1)).2).1) = some false := by
    decide +kernel
  obtain ⟨r, second, refused⟩ := Option.map_eq_some_iff.mp result
  obtain ⟨within, rfl⟩ := List.getElem?_eq_some_iff.mp second
  have parts : files = files.take 1 ++ files[1] :: files.drop 2 := by
    rw [← List.drop_eq_getElem_cons within, List.take_append_drop]
  obtain ⟨e, failed⟩ := WriteResult.isOk_eq_false.mp refused
  obtain ⟨early, late, after, _, all, without⟩ :=
    (writes "out" crowdedTree files (.refl _)).1 _ _ _ _ parts failed
  exact ⟨records ▸ names, skipped.trans (by decide +kernel), early, late, after, _, all, without⟩

end Questionnaire
