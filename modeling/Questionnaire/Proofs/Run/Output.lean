import Questionnaire.Proofs.Files.Directory
import Questionnaire.Proofs.Record
import Questionnaire.Proofs.Run.Tally

/-!
What the output directory holds after the records of a file have been written into it. A record is
written when it has a text and its filename is legal, whatever was written before it, and of the
records with one filename the last one stays (`attemptAll_output`).
-/
namespace Questionnaire
open Files Yaml

namespace Record

/-- The text of the file, if the fields can be written. -/
def text? (r : Record) : Option String := (Mapping.write r.fields).toOption

/-- Can this record be written into a directory of files? -/
def isWritable (r : Record) : Bool := r.text?.isSome && isLegalName r.filename

/-- The text of the last record of a filename among those that can be written. -/
def lastText? (name : String) (rs : List Record) : Option String :=
  (rs.reverse.find? fun r => r.isWritable && r.filename == name).bind text?

theorem lastText?_cons (name : String) (r : Record) (rs : List Record) :
    lastText? name (r :: rs) =
      (lastText? name rs).or (if r.isWritable && r.filename == name then r.text? else none) := by
  simp only [lastText?, List.reverse_cons, List.find?_append]
  cases hlast : rs.reverse.find? fun r => r.isWritable && r.filename == name with
  | none =>
    by_cases hr : r.isWritable && r.filename == name <;> simp [hr]
  | some s =>
    have hs := List.find?_some hlast
    simp only [isWritable, Bool.and_eq_true] at hs
    obtain ⟨text, htext⟩ := Option.isSome_iff_exists.mp hs.1.1
    simp [htext]

section Directory
variable {t : Tree} {root : String} {place : List String}

theorem attempt_writable (held : t.Holds root place) {r : Record} (hname : IsName r.filename)
    {text : String} (htext : r.text? = some text) (legal : isLegalName r.filename) :
    r.attempt root t =
      (.ok (joinPath root r.filename), t.put (place ++ [r.filename]) (.file text.toUTF8)) := by
  rw [attempt_written (eq_ok_of_toOption htext), held.writeText_legal hname legal]

theorem attempt_unwritable (held : t.Holds root place) {r : Record} (hname : IsName r.filename)
    (unwritable : r.isWritable = false) : ∃ e, r.attempt root t = (.error e, t) := by
  cases hw : Mapping.write r.fields with
  | error e => exact ⟨.serialize r.filename e, attempt_unwritten hw⟩
  | ok text =>
    have illegal : ¬ isLegalName r.filename := by
      intro legal
      simp [isWritable, text?, hw, legal, Except.toOption] at unwritable
    obtain ⟨e, refused⟩ := held.writeText_illegal hname illegal text
    exact ⟨.write (joinPath root r.filename) e, by rw [attempt_written hw, refused]⟩

/-- The directory after some records: what is a file of them, and what is as before. -/
structure Written (t : Tree) (root : String) (place : List String) (rs : List Record)
    (outcomes : List (Except Error String)) (after : Tree) : Prop where
  held : after.Holds root place
  cwd : after.cwd = t.cwd
  outcome : outcomes.map WriteResult.isOk = rs.map isWritable
  named : ∀ name, after.node? (place ++ [name]) =
    ((lastText? name rs).map fun text => .file text.toUTF8).or (t.node? (place ++ [name]))
  other : ∀ q, (∀ name, q ≠ place ++ [name]) → after.node? q = t.node? q

theorem attempt_output (held : t.Holds root place) {r : Record} (hname : IsName r.filename) :
    Written t root place [r] [(r.attempt root t).1] (r.attempt root t).2 := by
  have last : ∀ name, lastText? name [r] =
      if r.isWritable && r.filename == name then r.text? else none := fun name => by
    rw [lastText?_cons]
    rfl
  cases hr : r.isWritable with
  | false =>
    obtain ⟨e, he⟩ := attempt_unwritable held hname hr
    rw [he]
    refine ⟨held, rfl, by simp [WriteResult.isOk, hr], fun name => ?_, fun q _ => rfl⟩
    simp [last, hr]
  | true =>
    obtain ⟨hsome, legal⟩ := Bool.and_eq_true _ _ ▸ hr
    obtain ⟨text, htext⟩ := Option.isSome_iff_exists.mp hsome
    obtain ⟨kept, node⟩ := held.put_file r.filename text.toUTF8
    rw [attempt_writable held hname htext legal]
    refine ⟨kept, rfl, by simp [WriteResult.isOk, hr], fun name => ?_, fun q hq => ?_⟩
    · rw [node, last, hr, htext]
      by_cases h : r.filename = name
      · simp [h]
      · have hne : name ≠ r.filename := fun he => h he.symm
        simp [h, hne]
    · rw [node, if_neg (hq r.filename)]

theorem attemptAll_output (held : t.Holds root place) {rs : List Record}
    (names : ∀ r ∈ rs, IsName r.filename) :
    Written t root place rs (attemptAll root t rs).1 (attemptAll root t rs).2 := by
  induction rs generalizing t with
  | nil =>
    exact ⟨held, rfl, rfl, fun name => rfl, fun q _ => rfl⟩
  | cons r rs ih =>
    have first := attempt_output held (names r List.mem_cons_self)
    have rest := ih first.held fun s hs => names s (List.mem_cons_of_mem _ hs)
    have tree : (attemptAll root t (r :: rs)).2 = (attemptAll root (r.attempt root t).2 rs).2 := rfl
    have outcome := first.outcome
    simp only [List.map_cons, List.map_nil, List.cons.injEq, and_true] at outcome
    refine ⟨rest.held, rest.cwd.trans first.cwd, ?_, fun name => ?_, fun q hq => ?_⟩
    · simp only [attemptAll, List.map_cons, outcome, rest.outcome]
    · have before := first.named name
      rw [lastText?_cons] at before ⊢
      rw [tree, rest.named, before]
      cases lastText? name rs <;> simp [lastText?]
    · exact (rest.other q hq).trans (first.other q hq)

end Directory
end Record

theorem holds_entry {t : Tree} {root : String} {es : Entries} (dir : t.entry root = .ok (.dir es))
    (files : ∀ e ∈ es, e.2.isFile) :
    ∃ place, t.locate root = .ok (.entry place (.dir es)) ∧ t.Holds root place := by
  obtain ⟨place, leads⟩ := Tree.entry_eq_ok.mp dir
  refine ⟨place, leads, ⟨es, leads⟩, fun name n hn => ?_⟩
  refine Tree.node?_leaf (Tree.at?_of_locate leads) (fun d hd => ?_) hn
  obtain ⟨listed, found, rfl⟩ := Option.map_eq_some_iff.mp hd
  exact files listed (List.mem_of_find?_eq_some found)

theorem Definition.isName_records {d : Definition} {r : Record} (h : r ∈ d.records) :
    IsName r.filename := by
  obtain ⟨result, hresult, hr⟩ := List.mem_filterMap.mp h
  obtain ⟨p, _, q, _, made⟩ := mem_results.mp hresult
  exact Record.isName_ofQuestion (made.trans (eq_ok_of_toOption hr))

/-- Working on a file leaves the last text of each filename in a directory of files, and nothing
else. -/
theorem runFile_output {t : Tree} {root path : String} {d : Definition} {es : Entries}
    (loads : Definition.load t path = .ok d) (dir : t.entry root = .ok (.dir es))
    (files : ∀ e ∈ es, e.2.isFile) (verbose : Bool) (pages : Nat) :
    let after := runFile root verbose t pages path
    let outcomes := (Record.attemptAll root t d.records).1
    ∃ place, t.locate root = .ok (.entry place (.dir es)) ∧
      (∀ name, after.tree.node? (place ++ [name]) =
        match Record.lastText? name d.records with
        | some text => some (.file text.toUTF8)
        | none => t.node? (place ++ [name])) ∧
      (∀ name text, Record.lastText? name d.records = some text →
        after.tree.readText (joinPath root name) = .ok text) ∧
      (∀ q, (∀ name, q ≠ place ++ [name]) → after.tree.node? q = t.node? q) ∧
      after.tree.cwd = t.cwd ∧
      outcomes.map WriteResult.isOk = d.records.map Record.isWritable ∧
      after.stats.questionsWritten = outcomes.countP WriteResult.isOk := by
  intro after outcomes
  obtain ⟨place, leads, held⟩ := holds_entry dir files
  have written := Record.attemptAll_output held fun r (hr : r ∈ d.records) =>
    Definition.isName_records hr
  have isFile : after = finishFile root verbose t pages path (.ok d) := by
    simp only [after, runFile, loads]
  have tree : after.tree = (Record.attemptAll root t d.records).2 := by
    rw [isFile]
    exact finishFile_tree root verbose t pages ⟨path, .ok d⟩
  have stats : after.stats = tally [⟨path, .ok d⟩] outcomes := by
    rw [isFile]
    exact finishFile_stats root verbose t pages ⟨path, .ok d⟩
  rw [tree, stats]
  refine ⟨place, leads, fun name => ?_, fun name text last => ?_, written.other, written.cwd,
    written.outcome, rfl⟩
  · rw [written.named]
    cases Record.lastText? name d.records <;> rfl
  · obtain ⟨r, found, htext⟩ := Option.bind_eq_some_iff.mp last
    have hr := List.mem_reverse.mp (List.mem_of_find?_eq_some found)
    have fits := List.find?_some found
    simp only [Record.isWritable, Bool.and_eq_true, beq_iff_eq] at fits
    obtain ⟨⟨_, legal⟩, rfl⟩ := fits
    refine written.held.readText_of_node (Definition.isName_records hr) legal ?_
    rw [written.named, last]
    rfl

/-- Two questions with one filename, between them and behind them some that cannot be written. -/
private def sharedNameTree : Tree where
  root := .dir [("work", .dir
    [("in.yml", .file ("P:\n  A: \x7bkey: 17, n: 1\x7d\n  B: \x7bkey: \"\\0\"\x7d\n" ++
        "R:\n  C: \x7bkey: '17', n: 2\x7d\n  D: \x7bkey: 17, n: \x7b!t x: 3\x7d\x7d\n" ++
        "  E: \x7bn: 4\x7d\n").toUTF8),
      ("out", .dir [("old.yml", .file "old\n".toUTF8), ("17.yml", .file "long before\n".toUTF8)])])]
  cwd := ["work"]

theorem runFile_output_sharedName :
    ∃ d es, Definition.load sharedNameTree "in.yml" = .ok d ∧
      sharedNameTree.entry "out" = .ok (.dir es) ∧ (∀ e ∈ es, e.2.isFile) ∧
      d.records.map (·.filename) = ["17.yml", "\x00.yml", "17.yml", "17.yml"] ∧
      d.records.map Record.isWritable = [true, false, true, false] ∧
      (runFile "out" false sharedNameTree 0 "in.yml").tree.readText "out/17.yml" =
        .ok "n: 2\nquestion: C\n" := by
  have loaded : ((Definition.load sharedNameTree "in.yml").toOption.map fun d =>
      (d.records.map (·.filename), d.records.map Record.isWritable,
        Record.lastText? "17.yml" d.records)) =
      some (["17.yml", "\x00.yml", "17.yml", "17.yml"], [true, false, true, false],
        some "n: 2\nquestion: C\n") := by
    decide +kernel
  obtain ⟨d, hd, facts⟩ := Option.map_eq_some_iff.mp loaded
  obtain ⟨names, writable, last⟩ : _ ∧ _ ∧ _ := by simpa only [Prod.mk.injEq] using facts
  have loads := eq_ok_of_toOption hd
  have dir : sharedNameTree.entry "out" = .ok (.dir
      [("old.yml", .file "old\n".toUTF8), ("17.yml", .file "long before\n".toUTF8)]) := rfl
  have files : ∀ e ∈ [("old.yml", Entry.file "old\n".toUTF8),
      ("17.yml", .file "long before\n".toUTF8)], e.2.isFile := by simp [Entry.isFile]
  obtain ⟨place, _, _, reads, _⟩ := runFile_output loads dir files false 0
  exact ⟨d, _, loads, dir, files, names, writable, reads "17.yml" _ last⟩

end Questionnaire
