import Questionnaire.Proofs.Definition
import Questionnaire.Proofs.Record
import Questionnaire.Proofs.Yaml.Sameness
import Questionnaire.Proofs.Yaml.Write.Nesting
import Questionnaire.Proofs.Yaml.Write.ReadBack

/-!
Which records can be written, and what their texts are read as. What a question of a definition
holds could have been read from a text itself, and so could its record (`readable_fields`). If the
record has no tagged value its text is thus read back as the record; it has a text exactly when no
mapping of one entry has such a mapping as its key (`readBack_iff`).
-/
namespace Questionnaire
open Yaml

theorem Definition.readable_metadata {content : String} {d : Definition}
    (accepted : ofText content = .ok d) {p : Page} (hp : p ∈ d.pages) {q : Question}
    (hq : q ∈ p.questions) : q.metadata.Readable 126 := by
  obtain ⟨v, w, read, expanded, defined⟩ := ofText_eq_ok.mp accepted
  obtain ⟨es, rfl, pages⟩ := ofValue_eq_ok.mp defined
  have root : Mapping.Readable 127 es := (readable_expand (readable_ofString read) expanded).fields
  obtain ⟨e, he, _, qs, heq, questions⟩ := exists_of_forall₂ pages.flip hp
  have page : Mapping.Readable 126 qs := (heq ▸ root.values e he).fields
  obtain ⟨f, hf, _, metadata⟩ := exists_of_forall₂ questions.flip hq
  exact metadata ▸ page.values f hf

namespace Record
variable {page : String} {q : Question} {r : Record}

theorem readable_fields {depth : Nat} (metadata : q.metadata.Readable (depth + 1))
    (made : ofQuestion page q = .ok r) : r.fields.Readable depth := by
  obtain ⟨fields, key, stem, eq, _, _, rfl⟩ := ofQuestion_eq_ok.mp made
  rw [eq] at metadata
  exact metadata.fields.erase.insert (.str q.text)

theorem written_iff (untagged : (Value.map r.fields).isUntagged) :
    (∃ text, Mapping.write r.fields = .ok text) ↔ (Value.map r.fields).lostStarts = 0 := by
  rw [← Write.fault?_eq_none_iff untagged, Mapping.write]
  cases Write.fault? (.map r.fields) <;> simp

theorem text_of_write {es : Mapping} {text : String} (written : Mapping.write es = .ok text) :
    text = Mapping.text es := by
  rw [Mapping.write] at written
  split at written
  · cases written
  · cases written
    rfl

/-- A record without tagged values is written exactly when no mapping of one entry in it has such a
mapping as its key, and what is written is read as the record itself. -/
theorem readBack_iff {content : String} {d : Definition}
    (accepted : Definition.ofText content = .ok d) {p : Page} (hp : p ∈ d.pages)
    (hq : q ∈ p.questions) (made : ofQuestion p.name q = .ok r)
    (untagged : (Value.map r.fields).isUntagged) :
    (∀ text, Mapping.write r.fields = .ok text → Value.ofString text = .ok (.map r.fields)) ∧
      ((∃ text, Mapping.write r.fields = .ok text) ↔ (Value.map r.fields).lostStarts = 0) := by
  refine ⟨fun text written => ?_, written_iff untagged⟩
  have fields : r.fields.Readable 125 :=
    readable_fields (Definition.readable_metadata accepted hp hq) made
  have readable : (Value.map r.fields).Readable maxDepth := fields.map.mono (by decide)
  rw [text_of_write written]
  exact ofString_text untagged readable

/-- A question whose fields are of all kinds, some of them under keys that are no texts. -/
def manyKinds : String :=
  "P:\n  \"Q\\n \":\n    key: k\n    '1': [1, 1.5, .nan, ~, '~', \"\\n\\ta\\n\", \"\\0\"]\n" ++
    "    ? \x7ba: \x7b\x7d\x7d\n    : []\n"

theorem readBack_iff_manyKinds :
    let items : List Value := [.num (.int 1), .num (.float (.ofDecimal false 15 (-1))),
      .num (.float .nan), .null, .str "~", .str "\n\ta\n", .str "\x00"]
    let key : Value := .map [(.str "a", .map [])]
    let fields : Mapping := [(.str "1", .seq items), (key, .seq [])]
    let q : Question := ⟨"Q\n ", .map ((.str "key", .str "k") :: fields)⟩
    let r : Record := ⟨"k.yml", fields ++ [(.str "question", .str "Q\n ")]⟩
    Definition.ofText manyKinds = .ok ⟨[⟨"P", [q]⟩]⟩ ∧ ofQuestion "P" q = .ok r ∧
      ∃ text, Mapping.write r.fields = .ok text ∧ Value.ofString text = .ok (.map r.fields) := by
  intro items key fields q r
  have accepted : Definition.ofText manyKinds = .ok ⟨[⟨"P", [q]⟩]⟩ :=
    eq_ok_of_toOption (by decide +kernel)
  have made : ofQuestion "P" q = .ok r := eq_ok_of_toOption (by decide +kernel)
  have untagged : (Value.map r.fields).isUntagged := by decide +kernel
  obtain ⟨reads, written⟩ :=
    readBack_iff accepted List.mem_cons_self List.mem_cons_self made untagged
  obtain ⟨text, htext⟩ := written.mpr (by decide +kernel)
  exact ⟨accepted, made, text, htext, reads text htext⟩

/-- A question with a field whose key is a mapping with a mapping as its key. -/
def nestedKey : String := "P:\n  Q: \x7bkey: k, f: \x7b\x7ba: b\x7d: c\x7d\x7d\n"

theorem nestedKey_unwritten :
    let inner : Value := .map [(.map [(.str "a", .str "b")], .str "c")]
    let q : Question := ⟨"Q", .map [(.str "key", .str "k"), (.str "f", inner)]⟩
    let r : Record := ⟨"k.yml", [(.str "f", inner), (.str "question", .str "Q")]⟩
    Definition.ofText nestedKey = .ok ⟨[⟨"P", [q]⟩]⟩ ∧ ofQuestion "P" q = .ok r ∧
      (Value.map r.fields).isUntagged ∧ ∀ text, Mapping.write r.fields ≠ .ok text := by
  intro inner q r
  refine ⟨eq_ok_of_toOption (by decide +kernel), eq_ok_of_toOption (by decide +kernel),
    by decide +kernel, fun text written => ?_⟩
  have fault : (Mapping.write r.fields).toOption = none := by decide +kernel
  rw [written] at fault
  cases fault

end Record
end Questionnaire
