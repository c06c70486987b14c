import Questionnaire.Proofs.Definition
import Questionnaire.Proofs.Files.Output
import Questionnaire.Proofs.Record.Key
import Questionnaire.Proofs.Run.Writes
import Questionnaire.Proofs.Yaml.Write.Scalar

/-!
Saving a record under any name below any root. Either the tree stays as it is or exactly one file
gets the text of the record, at the place that the path stands for (`attempt_allOrNothing`). In a
directory of files it is up to the name, and the check of the key does not look at all of it: a text
with a zero, or one that leaves no room for the extension, names a file that cannot be written
(`attempt_succeeds_iff`).
-/
namespace Questionnaire.Record
open Files Yaml
variable {page : String} {q : Question} {r : Record} {t : Tree} {root : String}

/-- An attempt to write a record leaves the tree alone, or gives one file the text of the record. A
record without a text is refused before its path is looked at. -/
theorem attempt_allOrNothing (rooted : t.root.isDir) (root : String) (r : Record) :
    let path := joinPath root r.filename
    (∀ e, Mapping.write r.fields = .error e →
      r.attempt root t = (.error (.serialize r.filename e), t)) ∧
    ∀ text, Mapping.write r.fields = .ok text →
      (∃ e, r.attempt root t = (.error (.write path e), t)) ∨
      ∃ after place, r.attempt root t = (.ok path, after) ∧ t.target? path = some place ∧
        after.locate path = .ok (.entry place (.file text.toUTF8)) ∧
        after.readText path = .ok text ∧ t.Filled after place text.toUTF8 ∧
        (∀ q, after.node? q = some .dir ↔ t.node? q = some .dir) ∧
        ∀ q target, after.node? q = some (.link target) ↔ t.node? q = some (.link target) := by
  intro path
  refine ⟨fun e failed => attempt_unwritten failed, fun text written => ?_⟩
  rw [attempt_written written]
  cases result : t.writeText path text with
  | error e => exact Or.inl ⟨e, rfl⟩
  | ok after =>
    obtain ⟨place, target, filled⟩ := Tree.writeFile_place rooted result
    have reads : after.readText path = .ok text := Tree.readText_eq_ok.mpr
      ⟨place, text.toUTF8, (Tree.target?_sameFrame filled.sameFrame filled.cwd path).trans target,
        filled.there, fromUTF8?_toUTF8 text⟩
    exact Or.inr ⟨after, place, rfl, target, filled.locate_eq target, reads, filled,
      Tree.node?_eq_dir_sameFrame filled.sameFrame, Tree.node?_eq_link_sameFrame filled.sameFrame⟩

/-- A link at the path of a record that leads to a file that is not there yet. -/
private def danglingTree : Tree where
  root := .dir [("work", .dir [("near.yml", .file "near\n".toUTF8),
    ("out", .dir [("k.yml", .link "../far.yml")])])]
  cwd := ["work"]

theorem attempt_allOrNothing_dangling :
    let r : Record := ⟨"k.yml", [(.str "a", .str "b")]⟩
    danglingTree.root.isDir ∧ Mapping.write r.fields = .ok "a: b\n" ∧
      ∃ after, r.attempt "out" danglingTree = (.ok "out/k.yml", after) ∧
        after.readText "out/k.yml" = .ok "a: b\n" ∧
        after.node? ["work", "far.yml"] = some (.file "a: b\n".toUTF8) ∧
        after.node? ["work", "out", "k.yml"] = some (.link "../far.yml") ∧
        after.node? ["work", "near.yml"] = some (.file "near\n".toUTF8) := by
  intro r
  have rooted : danglingTree.root.isDir := rfl
  have written : Mapping.write r.fields = .ok "a: b\n" := eq_ok_of_toOption (by decide +kernel)
  have path : joinPath "out" r.filename = "out/k.yml" := by decide +kernel
  have place : danglingTree.target? "out/k.yml" = some ["work", "far.yml"] := by decide +kernel
  have isOk : (r.attempt "out" danglingTree).1.toOption.isSome := by decide +kernel
  rcases (attempt_allOrNothing rooted "out" r).2 _ written with
    ⟨e, failed⟩ | ⟨after, q, done, target, _, reads, filled, _, links⟩
  · rw [failed] at isOk
    cases isOk
  · rw [path] at done target reads
    obtain rfl := Option.some.inj (target.symm.trans place)
    exact ⟨rooted, written, after, done, reads, filled.there, (links _ _).mpr rfl,
      (filled.others _ (by decide)).trans rfl⟩

/-- In a directory that has no directory and no link under the name of a record it is up to the name
alone whether the record is written. -/
theorem attempt_free {text : String} {es : Entries} (hname : IsName r.filename)
    (written : Mapping.write r.fields = .ok text) (dir : t.entry root = .ok (.dir es))
    (free : ∀ e, (Entry.dir es).child? r.filename = some e → e.isFile) :
    ∃ place, r.attempt root t =
      if '\x00' ∈ r.filename.toList then
        (.error (.write (joinPath root r.filename) .nulInName), t)
      else if Tree.maxName < r.filename.utf8ByteSize then
        (.error (.write (joinPath root r.filename) .nameTooLong), t)
      else (.ok (joinPath root r.filename), t.put (place ++ [r.filename]) (.file text.toUTF8)) := by
  obtain ⟨place, leads, hes⟩ := Tree.outputPlace?_of_entry dir
  have noLink : ∀ target, t.node? (place ++ [r.filename]) ≠ some (.link target) := by
    intro target there
    obtain ⟨c, hc⟩ := Tree.node?_leaf hes free there
    cases hc
  have noDir : (t.node? (place ++ [r.filename])).any Entry.Node.isDir = false := by
    rw [Bool.eq_false_iff, ne_eq, Entry.any_isDir]
    intro there
    obtain ⟨c, hc⟩ := Tree.node?_leaf hes free there
    cases hc
  refine ⟨place, ?_⟩
  rw [attempt_written written, Tree.writeText_leads noLink hname leads, Tree.refusal?, noDir]
  by_cases zero : '\x00' ∈ r.filename.toList
  · simp only [zero, if_true]
  · by_cases long : Tree.maxName < r.filename.utf8ByteSize
    · simp only [zero, long, if_true, if_false]
    · simp only [zero, long, if_false, Bool.false_eq_true]

/-- The file of a question is named in the progress of its page before anything is written. -/
theorem announced {p : Page} (asked : q ∈ p.questions) (made : ofQuestion p.name q = .ok r)
    (context : PageContext) :
    ∃ names, Notice.progress context names ∈ (p.run context).log ∧ r.filename ∈ names := by
  have result : .ok r ∈ p.results := made ▸ List.mem_map_of_mem asked
  have record : r ∈ p.records := List.mem_filterMap.mpr ⟨.ok r, result, rfl⟩
  exact ⟨_, List.mem_append_right _ List.mem_cons_self, List.mem_map_of_mem record⟩

/-- In such a directory the file of a question is written exactly if the text of its key holds no
zero and leaves room for the extension; it is announced in any case. -/
theorem attempt_succeeds_iff {text : String} {es : Entries} (made : ofQuestion page q = .ok r)
    (written : Mapping.write r.fields = .ok text) (dir : t.entry root = .ok (.dir es))
    (free : ∀ e, (Entry.dir es).child? r.filename = some e → e.isFile) :
    let path := joinPath root r.filename
    (∀ p : Page, p.name = page → q ∈ p.questions → ∀ context,
      ∃ names, Notice.progress context names ∈ (p.run context).log ∧ r.filename ∈ names) ∧
    ∃ fields key stem, q.metadata = .map fields ∧ Mapping.find? keyField fields = some key ∧
      key.scalarText? = some stem ∧ r.filename = stem ++ ".yml" ∧
      ((∃ after, r.attempt root t = (.ok path, after)) ↔
        '\x00' ∉ stem.toList ∧ stem.utf8ByteSize ≤ 251) ∧
      ('\x00' ∈ stem.toList → r.attempt root t = (.error (.write path .nulInName), t)) ∧
      ('\x00' ∉ stem.toList → 251 < stem.utf8ByteSize →
        r.attempt root t = (.error (.write path .nameTooLong), t)) := by
  intro path
  refine ⟨fun p name asked => announced asked (name ▸ made), ?_⟩
  obtain ⟨fields, key, stem, metadata, found, hstem, hr⟩ := ofQuestion_eq_ok.mp made
  have named : r.filename = stem ++ ".yml" := by rw [hr]; rfl
  have zero : '\x00' ∈ r.filename.toList ↔ '\x00' ∈ stem.toList := by
    rw [named, String.toList_append, List.mem_append]
    exact or_iff_left (by decide)
  have long : Tree.maxName < r.filename.utf8ByteSize ↔ 251 < stem.utf8ByteSize := by
    have extension : ".yml".utf8ByteSize = 4 := rfl
    rw [named, String.utf8ByteSize_append, extension, Tree.maxName]
    omega
  obtain ⟨place, result⟩ := attempt_free (isName_ofQuestion made) written dir free
  simp only [zero, long] at result
  refine ⟨fields, key, stem, metadata, found, (stemOf_eq_ok.mp hstem).1, named, ?_⟩
  rw [result]
  by_cases held : '\x00' ∈ stem.toList
  · simp [held, path]
  · by_cases beyond : 251 < stem.utf8ByteSize
    · simp [held, beyond, path]
    · simp [held, beyond, path, Nat.not_lt.mp beyond]

/-- The characters of a key that fills a file name with the extension. -/
private def fullChars : List Char := List.replicate 83 '题' ++ ['1', '7']

theorem attempt_succeeds_iff_full :
    let key : String := .ofList fullChars
    let q : Question := ⟨"Q", .map [(.str "key", .str key)]⟩
    let r : Record := ⟨key ++ ".yml", [(.str "question", .str "Q")]⟩
    let t : Tree := ⟨.dir [("out", .dir [("17.yml", .link "far.yml")])], []⟩
    ofQuestion "P" q = .ok r ∧ Mapping.write r.fields = .ok "question: Q\n" ∧
      t.entry "out" = .ok (.dir [("17.yml", .link "far.yml")]) ∧
      ∃ after, r.attempt "out" t = (.ok (joinPath "out" r.filename), after) := by
  intro key q r t
  have chars : key.toList = fullChars := String.toList_ofList
  have other (text : String) (h : fullChars ≠ text.toList) : key ≠ text := by
    intro eq
    exact h (chars ▸ congrArg String.toList eq)
  have fits : isStem key := isStem_iff.mpr ⟨other "" (by decide), other "." (by decide),
    other ".." (by decide), by rw [chars]; decide, by rw [chars]; decide⟩
  have made : ofQuestion "P" q = .ok r :=
    ofQuestion_eq_ok.mpr ⟨_, .str key, key, rfl, rfl, stemOf_eq_ok.mpr ⟨rfl, fits⟩, rfl⟩
  have written : Mapping.write r.fields = .ok "question: Q\n" :=
    eq_ok_of_toOption (by decide +kernel)
  have free : ∀ e, (Entry.dir [("17.yml", .link "far.yml")]).child? r.filename = some e →
      e.isFile := by
    intro e he
    have absent : ((Entry.dir [("17.yml", .link "far.yml")]).child? r.filename).isNone := by
      decide +kernel
    rw [he] at absent
    cases absent
  have dir : t.entry "out" = .ok (.dir [("17.yml", .link "far.yml")]) := rfl
  obtain ⟨_, fields, value, stem, metadata, found, text, _, succeeds, _⟩ :=
    attempt_succeeds_iff made written dir free
  have stem_eq : stem = key := by
    obtain rfl := Value.map.inj metadata
    obtain rfl : Value.str key = value := Option.some.inj found
    exact (Option.some.inj text).symm
  have size : key.utf8ByteSize = 251 := by
    rw [← Write.bytes_toList, chars]
    rfl
  refine ⟨made, written, dir, succeeds.mpr ?_⟩
  rw [stem_eq, chars, size]
  decide

/-- A question with a key that holds a zero. -/
def zeroKey : String := "P:\n  Q: \x7bkey: \"a\\0\"\x7d\n"

theorem zeroKey_unwritable :
    let q : Question := ⟨"Q", .map [(.str "key", .str "a\x00")]⟩
    let r : Record := ⟨"a\x00.yml", [(.str "question", .str "Q")]⟩
    let t : Tree := ⟨.dir [("out", .dir [])], []⟩
    let context : PageContext := ⟨1, "P", "in.yml"⟩
    Definition.ofText zeroKey = .ok ⟨[⟨"P", [q]⟩]⟩ ∧ ofQuestion "P" q = .ok r ∧
      Mapping.write r.fields = .ok "question: Q\n" ∧ t.entry "out" = .ok (.dir []) ∧
      (Page.run context ⟨"P", [q]⟩).log = [.progress context ["a\x00.yml"]] ∧
      r.attempt "out" t = (.error (.write "out/a\x00.yml" .nulInName), t) := by
  intro q r t context
  have made : ofQuestion "P" q = .ok r := eq_ok_of_toOption (by decide +kernel)
  have written : Mapping.write r.fields = .ok "question: Q\n" :=
    eq_ok_of_toOption (by decide +kernel)
  have path : joinPath "out" r.filename = "out/a\x00.yml" := by decide +kernel
  have dir : t.entry "out" = .ok (.dir []) := rfl
  obtain ⟨place, result⟩ := attempt_free (isName_ofQuestion made) written dir
    fun e he => by cases he
  rw [if_pos (by decide), path] at result
  exact ⟨eq_ok_of_toOption (by decide +kernel), made, written, dir, rfl, result⟩

end Questionnaire.Record
