import Questionnaire.Proofs.Definition.Order
import Questionnaire.Proofs.Yaml.Precedence

/-!
Merge keys in a document and what stands at its own keys. If no source has a merge key of its own
each mapping of the document, from its pages down into the metadata, keeps its own entries and takes
others from the first source that has them (`ofText_precedence`). So a question names its own file
if it has a key, and a page keeps its own questions.
-/
namespace Questionnaire
open Yaml

/-- A question and the entry that has been chosen for it. A key of its own names its file. -/
structure Question.SettledBy (e : Value × Value) (q : Question) : Prop where
  text : Definition.keyText? e.1 = some q.text
  metadata : e.2.MergesTo q.metadata
  named : ∀ (fields : Mapping) (key : Value), e.2 = .map fields → (Record.keyField, key) ∈ fields →
    ∀ page r, Record.ofQuestion page q = .ok r →
      ∃ stem, key.scalarText? = some stem ∧ r.filename = stem ++ Record.fileExtension

/-- A page and the entry that has been chosen for it, and in that the entries for its questions.
Nothing is chosen in the place of a question that it has itself. -/
structure Page.SettledBy (e : Value × Value) (p : Page) : Prop where
  name : Definition.keyText? e.1 = some p.name
  questions : ∃ qs os : Mapping, e.2 = .map qs ∧ qs.Resolved os ∧
    (∀ f ∈ qs, f.1 ≠ Mapping.mergeKey → ∀ g ∈ os, f.1.same g.1 → g = f) ∧
    List.Forall₂ Question.SettledBy os p.questions

namespace Definition

theorem named_of_mergesTo {page : String} {q : Question} {r : Record} {fields : Mapping}
    {key : Value} (metadata : (Value.map fields).MergesTo q.metadata)
    (keyed : (Record.keyField, key) ∈ fields) (made : Record.ofQuestion page q = .ok r) :
    ∃ stem, key.scalarText? = some stem ∧ r.filename = stem ++ Record.fileExtension := by
  obtain ⟨gs, found, stem, hgs, there, named, rfl⟩ := Record.ofQuestion_eq_ok.mp made
  have other : Record.keyField ≠ Mapping.mergeKey := by decide
  rw [hgs] at metadata
  obtain ⟨x, kept, rule⟩ := metadata.own keyed other (same_str.mpr rfl)
  obtain rfl := Option.some.inj (there.symm.trans kept)
  obtain ⟨scalar, _⟩ := Record.stemOf_eq_ok.mp named
  have same : key = found := rule.eq_of_scalar scalar
  exact ⟨stem, same ▸ scalar, rfl⟩

theorem settledBy_question {e : Value × Value} {q : Question} (he : e.2.WellKeyed)
    (once : e.2.MergesOnce) (question : Question.ComesFrom e q) : Question.SettledBy e q := by
  obtain ⟨text, expanded⟩ := question
  have metadata := mergesTo_of_expand he once expanded
  refine ⟨text, metadata, ?_⟩
  intro fields key own keyed page r made
  rw [own] at metadata
  exact named_of_mergesTo metadata keyed made

theorem settledBy_page {e : Value × Value} {p : Page} (he : e.2.WellKeyed)
    (once : e.2.MergesOnce) (page : Page.ComesFrom e p) : Page.SettledBy e p := by
  obtain ⟨name, qs, fields, asked⟩ := page
  rw [fields] at he once
  have resolved := Mapping.resolved_merged he (once qs (.here _))
  refine ⟨name, qs, qs.merged, fields, resolved, ?_, forall₂_imp_mem asked fun f hf q => ?_⟩
  · intro f hf other g hg same
    exact resolved.own he hf other hg same
  · exact settledBy_question (wellKeyed_merged he hf).2 fun es led => once es (.field hf led)

/-- A document without chains of merge keys is settled by its own entries first and then by its
sources in their order, on each of its levels. -/
theorem ofText_precedence {text : String} {v : Value} {d : Definition}
    (read : Value.ofString text = .ok v) (flat : v.FlatSources) (accepted : ofText text = .ok d) :
    ∃ w, v.expand = .ok w ∧ v.MergesTo w ∧ ofValue w = .ok d ∧
      ∃ root os : Mapping, v = .map root ∧ root.Resolved os ∧
        List.Forall₂ Page.SettledBy os d.pages := by
  have hv := wellKeyed_ofString read
  have once := flat.mergesOnce hv
  obtain ⟨v', w, read', expanded, defined⟩ := ofText_eq_ok.mp accepted
  cases read.symm.trans read'
  refine ⟨w, expanded, mergesTo_of_expand hv once expanded, defined, ?_⟩
  obtain ⟨root, read', pages⟩ := ofText_comesFrom accepted
  cases read.symm.trans read'
  refine ⟨root, root.merged, rfl, Mapping.resolved_merged hv (once root (.here _)), ?_⟩
  refine forall₂_imp_mem pages fun e he p page => ?_
  exact settledBy_page (wellKeyed_merged hv he).2 (fun es led => once es (.field he led)) page

/-- A page with a question that two sources have and with one of its own that the first has, too,
which in turn has a key that its source has. -/
theorem ofText_precedence_overlapping :
    let text := "P:\n  <<: [\x7bA: \x7bkey: a\x7d, B: \x7bkey: b, <<: \x7bt: u\x7d\x7d\x7d, " ++
      "\x7bB: \x7bkey: c\x7d\x7d]\n" ++
      "  A: \x7bkey: own, <<: \x7bkey: a\x7d, n: !t [\x7b<<: \x7bs: s\x7d\x7d]\x7d\n"
    let field (name text : String) : Value × Value := (.str name, .str text)
    let d : Definition := ⟨[⟨"P", [
      ⟨"A", .map [field "key" "own",
        (.str "n", .tagged ⟨"t"⟩ (.seq [.map [field "s" "s"]]))]⟩,
      ⟨"B", .map [field "key" "b", field "t" "u"]⟩]⟩]⟩
    ∃ v, Value.ofString text = .ok v ∧ v.FlatSources ∧ ofText text = .ok d ∧
      ∃ w, v.expand = .ok w ∧ v.MergesTo w ∧ ofValue w = .ok d ∧
        ∃ root os : Mapping, v = .map root ∧ root.Resolved os ∧
          List.Forall₂ Page.SettledBy os d.pages := by
  intro text field d
  let own : Value := .map [field "key" "own", (Mapping.mergeKey, .map [field "key" "a"]),
    (.str "n", .tagged ⟨"t"⟩ (.seq [.map [(Mapping.mergeKey, .map [field "s" "s"])]]))]
  let first : Mapping := [(.str "A", .map [field "key" "a"]),
    (.str "B", .map [field "key" "b", (Mapping.mergeKey, .map [field "t" "u"])])]
  let second : Mapping := [(.str "B", .map [field "key" "c"])]
  let v : Value := .map [(.str "P", .map [(Mapping.mergeKey, .seq [.map first, .map second]),
    (.str "A", own)])]
  have read : Value.ofString text = .ok v := eq_ok_of_toOption (by decide +kernel)
  have accepted : ofText text = .ok d := by
    rw [ofText, read]
    exact eq_ok_of_toOption (by decide +kernel)
  have flat : v.FlatSources := by
    simp [v, own, first, second, field, Value.flatSources_map, Value.flatSources_seq,
      Value.flatSources_tagged, Value.flatSources_str, Mapping.sources, Mapping.find?,
      Mapping.mergeKey, Mapping.contains, Value.sources, Value.same, or_imp, forall_and]
  exact ⟨v, read, flat, accepted, ofText_precedence read flat accepted⟩

end Definition
end Questionnaire
