import Mathlib.Data.List.Forall2
import Questionnaire.Proofs.Definition.Malformed
import Questionnaire.Proofs.Definition.Order
import Questionnaire.Proofs.Run.Writes
import Questionnaire.Proofs.Yaml.Mergeable

/-!
What one question can do to a file. A document of pages and questions is a definition exactly when
the metadata of each question can be merged (`exists_ofText_iff`), so a merge key with anything but
mappings at it costs the whole file. Nothing else does: with other metadata for one question that
can be merged, the definition is the same but for what this question says (`ofText_outline_iff`).
-/
namespace Questionnaire
open Yaml

section Modified
variable {α β : Type} {f : α → α} {g : β → β}

theorem modify_split {i : Nat} {as : List α} {a : α} (h : as[i]? = some a) (f : α → α) :
    ∃ before after, as = before ++ a :: after ∧ as.modify i f = before ++ f a :: after := by
  obtain ⟨inside, rfl⟩ := List.getElem?_eq_some_iff.mp h
  refine ⟨as.take i, as.drop (i + 1), ?_, List.modify_eq_take_cons_drop inside⟩
  rw [← List.drop_eq_getElem_cons inside, List.take_append_drop]

theorem exists_of_mem_modify {i : Nat} {as : List α} {x : α} (h : x ∈ as.modify i f) :
    ∃ a ∈ as, x = a ∨ x = f a := by
  cases there : as[i]? with
  | none =>
    rw [List.modify_eq_self (List.getElem?_eq_none_iff.mp there)] at h
    exact ⟨x, h, .inl rfl⟩
  | some a =>
    obtain ⟨before, after, rfl, modified⟩ := modify_split there f
    rw [modified, List.mem_append, List.mem_cons] at h
    rcases h with old | rfl | old
    · exact ⟨x, List.mem_append_left _ old, .inl rfl⟩
    · exact ⟨a, List.mem_append_cons_self, .inr rfl⟩
    · exact ⟨x, List.mem_append_right _ (List.mem_cons_of_mem a old), .inl rfl⟩

theorem forall₂_modify {R : α → β → Prop} {as : List α} {bs : List β}
    (related : List.Forall₂ R as bs) (kept : ∀ a b, R a b → R (f a) (g b)) (i : Nat) :
    List.Forall₂ R (as.modify i f) (bs.modify i g) := by
  induction related generalizing i with
  | nil =>
    rw [List.modify_nil, List.modify_nil]
    exact .nil
  | cons first rest ih =>
    cases i with
    | zero => exact .cons (kept _ _ first) rest
    | succ i => exact .cons first (ih i)

theorem forall₂_getElem? {R : α → β → Prop} {as : List α} {bs : List β}
    (related : List.Forall₂ R as bs) {i : Nat} {a : α} (h : as[i]? = some a) :
    ∃ b, bs[i]? = some b ∧ R a b := by
  induction related generalizing i with
  | nil => cases h
  | cons first rest ih =>
    cases i with
    | zero =>
      cases h
      exact ⟨_, rfl, first⟩
    | succ i => exact ih h

end Modified

/-- The pages of a document by their keys, each with its questions by theirs. What stands at the key
of a question, its metadata, is any value. -/
abbrev Outline := List (Value × Mapping)

namespace Outline

def document (o : Outline) : Value := .map (o.map fun p => (p.1, .map p.2))

/-- A scalar that is no merge key. -/
def IsPlainKey (key : Value) : Prop := key.isScalar ∧ key ≠ Mapping.mergeKey

/-- All keys above the metadata are scalars, and none of them is a merge key. -/
structure Plain (o : Outline) : Prop where
  pages : ∀ p ∈ o, IsPlainKey p.1
  questions : ∀ p ∈ o, ∀ q ∈ p.2, IsPlainKey q.1

instance (key : Value) : Decidable (IsPlainKey key) := inferInstanceAs (Decidable (_ ∧ _))

instance (o : Outline) : Decidable o.Plain :=
  decidable_of_iff ((∀ p ∈ o, IsPlainKey p.1) ∧ ∀ p ∈ o, ∀ q ∈ p.2, IsPlainKey q.1)
    ⟨fun h => ⟨h.1, h.2⟩, fun h => ⟨h.pages, h.questions⟩⟩

/-- The metadata of each question can be merged. -/
def Mergeable (o : Outline) : Prop := ∀ p ∈ o, ∀ q ∈ p.2, q.2.Mergeable

/-- There is such a question. -/
def Asks (o : Outline) (page question : Nat) : Prop :=
  ∃ p q, o[page]? = some p ∧ p.2[question]? = some q

/-- The same with other metadata for one question. -/
def replace (o : Outline) (page question : Nat) (metadata : Value) : Outline :=
  o.modify page fun p => (p.1, p.2.modify question fun q => (q.1, metadata))

end Outline

/-- The same with other metadata for one question. -/
def Page.replace (p : Page) (question : Nat) (metadata : Value) : Page :=
  { p with questions := p.questions.modify question fun q => { q with metadata } }

/-- The same with other metadata for one question. -/
def Definition.replace (d : Definition) (page question : Nat) (metadata : Value) : Definition where
  pages := d.pages.modify page (·.replace question metadata)

namespace Definition

/-- The page that comes from an entry of an outline, with its questions. -/
def PageFrom (e : Value × Mapping) (p : Page) : Prop :=
  keyText? e.1 = some p.name ∧ List.Forall₂ Question.ComesFrom e.2 p.questions

/-- The definition that an outline gives. -/
def GivenBy (o : Outline) (d : Definition) : Prop := List.Forall₂ PageFrom o d.pages

theorem question_unique {e : Value × Value} {q q' : Question} (h : Question.ComesFrom e q)
    (h' : Question.ComesFrom e q') : q = q' := by
  obtain ⟨text, metadata⟩ := q
  obtain ⟨text', metadata'⟩ := q'
  obtain rfl := Option.some.inj (h.1.symm.trans h'.1)
  obtain rfl := Except.ok.inj (h.2.symm.trans h'.2)
  rfl

theorem page_unique {e : Value × Mapping} {p p' : Page} (h : PageFrom e p)
    (h' : PageFrom e p') : p = p' := by
  have asked : Relator.RightUnique Question.ComesFrom := fun _ _ _ => question_unique
  obtain ⟨name, questions⟩ := p
  obtain ⟨name', questions'⟩ := p'
  obtain rfl := Option.some.inj (h.1.symm.trans h'.1)
  obtain rfl := asked.forall₂ h.2 h'.2
  rfl

theorem GivenBy.unique {o : Outline} {d d' : Definition} (h : GivenBy o d) (h' : GivenBy o d') :
    d = d' := by
  have pages : Relator.RightUnique PageFrom := fun _ _ _ => page_unique
  obtain ⟨ps⟩ := d
  obtain ⟨ps'⟩ := d'
  obtain rfl := pages.forall₂ h h'
  rfl

/-- What a question says has a part in nothing else. -/
theorem GivenBy.replace {o : Outline} {d : Definition} {m w : Value} (h : GivenBy o d)
    (expanded : m.expand = .ok w) (i j : Nat) : GivenBy (o.replace i j m) (d.replace i j w) := by
  refine forall₂_modify h ?_ i
  rintro e p ⟨name, asked⟩
  refine ⟨name, forall₂_modify asked ?_ j⟩
  rintro f q ⟨text, _⟩
  exact ⟨text, expanded⟩

section Outline
variable {o : Outline} {text : String}

theorem unmerged_of_plain {α : Type} {es : List (Value × α)}
    (plain : ∀ e ∈ es, Outline.IsPlainKey e.1) :
    Mapping.contains Mapping.mergeKey es = false := by
  refine List.any_eq_false.mpr fun e he same => ?_
  exact (plain e he).2 (same_str.mp same)

theorem unmerged_document (plain : o.Plain) : Mapping.contains Mapping.mergeKey
    (o.map fun p => (p.1, Value.map p.2)) = false := by
  refine unmerged_of_plain fun e he => ?_
  obtain ⟨p, hp, rfl⟩ := List.mem_map.mp he
  exact plain.pages p hp

theorem mergeable_document (plain : o.Plain) : o.document.Mergeable ↔ o.Mergeable := by
  rw [Outline.document, Value.mergeable_map (unmerged_document plain)]
  simp only [List.forall_mem_map]
  refine forall₂_congr fun p hp => ?_
  exact Value.mergeable_map (unmerged_of_plain (plain.questions p hp))

theorem wellKeyed_metadata (read : Value.ofString text = .ok o.document) {p : Value × Mapping}
    (hp : p ∈ o) {q : Value × Value} (hq : q ∈ p.2) : q.2.WellKeyed := by
  have document := wellKeyed_ofString read
  have page : (Value.map p.2).WellKeyed := document.value (List.mem_map.mpr ⟨p, hp, rfl⟩)
  exact page.value hq

theorem givenBy_of_ofText (plain : o.Plain) (read : Value.ofString text = .ok o.document)
    {d : Definition} (accepted : ofText text = .ok d) : GivenBy o d := by
  obtain ⟨root, read', pages⟩ := ofText_comesFrom accepted
  cases read.symm.trans read'
  rw [Mapping.merged_absent (unmerged_document plain), List.forall₂_map_left_iff] at pages
  refine forall₂_imp_mem pages ?_
  rintro p hp page ⟨name, qs, fields, asked⟩
  cases fields
  rw [Mapping.merged_absent (unmerged_of_plain (plain.questions p hp))] at asked
  exact ⟨name, asked⟩

/-- The metadata of one question is enough to refuse a text, and there is no other reason. -/
theorem exists_ofText_iff (plain : o.Plain) (read : Value.ofString text = .ok o.document) :
    (∃ d, ofText text = .ok d) ↔ o.Mergeable := by
  have document := wellKeyed_ofString read
  rw [← mergeable_document plain]
  constructor
  · rintro ⟨d, accepted⟩
    obtain ⟨v, w, read', expanded, _⟩ := ofText_eq_ok.mp accepted
    cases read.symm.trans read'
    exact mergeable_of_expand document expanded
  · intro mergeable
    obtain ⟨w, expanded⟩ := expand_of_mergeable document mergeable
    obtain ⟨fs, rfl, become⟩ := expand_map_ok document.distinct expanded
    rw [Mapping.merged_absent (unmerged_document plain)] at become
    have pages : ∀ f ∈ fs, ∃ p, Page.IsOf f p := by
      intro f hf
      obtain ⟨e, he, key, made⟩ := exists_of_forall₂ become.flip hf
      have page := document.value he
      obtain ⟨p, hp, rfl⟩ := List.mem_map.mp he
      obtain ⟨gs, hgs, asked⟩ := expand_map_ok page.distinct made
      rw [Mapping.merged_absent (unmerged_of_plain (plain.questions p hp))] at asked
      refine exists_page.mpr ⟨?_, gs, hgs, fun g hg => ?_⟩
      · rw [key]
        exact keyText?_ne_none.mpr (plain.pages p hp).1
      · obtain ⟨q, hq, key, _⟩ := exists_of_forall₂ asked.flip hg
        rw [key]
        exact keyText?_ne_none.mpr (plain.questions p hp q hq).1
    obtain ⟨ps, related⟩ := exists_forall₂.mpr pages
    exact ⟨⟨ps⟩, ofText_eq_ok.mpr ⟨_, _, read, expanded, ofValue_eq_ok.mpr ⟨fs, rfl, related⟩⟩⟩

theorem ofText_iff_givenBy (plain : o.Plain) (read : Value.ofString text = .ok o.document)
    {d : Definition} : ofText text = .ok d ↔ GivenBy o d := by
  constructor
  · exact givenBy_of_ofText plain read
  · intro given
    have mergeable : o.Mergeable := by
      intro p hp q hq
      obtain ⟨_, _, _, asked⟩ := exists_of_forall₂ given hp
      obtain ⟨_, _, _, expanded⟩ := exists_of_forall₂ asked hq
      exact mergeable_of_expand (wellKeyed_metadata read hp hq) expanded
    obtain ⟨d', accepted⟩ := (exists_ofText_iff plain read).mpr mergeable
    rw [given.unique (givenBy_of_ofText plain read accepted)]
    exact accepted

theorem plain_replace (plain : o.Plain) (i j : Nat) (m : Value) : (o.replace i j m).Plain := by
  constructor
  · intro p hp
    obtain ⟨p', hp', rfl | rfl⟩ := exists_of_mem_modify hp
    · exact plain.pages p hp'
    · exact plain.pages p' hp'
  · intro p hp q hq
    obtain ⟨p', hp', rfl | rfl⟩ := exists_of_mem_modify hp
    · exact plain.questions p hp' q hq
    · obtain ⟨q', hq', rfl | rfl⟩ := exists_of_mem_modify hq
      · exact plain.questions p' hp' q hq'
      · exact plain.questions p' hp' q' hq'

theorem exists_replaced {i j : Nat} (asks : o.Asks i j) (m : Value) :
    ∃ p ∈ o.replace i j m, ∃ q ∈ p.2, q.2 = m := by
  obtain ⟨p, q, page, question⟩ := asks
  obtain ⟨_, _, _, pages⟩ := modify_split page
    fun p => (p.1, p.2.modify j fun q => (q.1, m))
  obtain ⟨_, _, _, questions⟩ := modify_split question fun q => (q.1, m)
  refine ⟨(p.1, p.2.modify j fun q => (q.1, m)), ?_, (q.1, m), ?_, rfl⟩
  · rw [Outline.replace, pages]
    exact List.mem_append_cons_self
  · rw [questions]
    exact List.mem_append_cons_self

end Outline

theorem GivenBy.exists_question {o : Outline} {d : Definition} (given : GivenBy o d) {i j : Nat}
    (asks : o.Asks i j) : ∃ p q, d.pages[i]? = some p ∧ p.questions[j]? = some q := by
  obtain ⟨_, _, page, question⟩ := asks
  obtain ⟨p, hp, _, asked⟩ := forall₂_getElem? given page
  obtain ⟨q, hq, _⟩ := forall₂_getElem? asked question
  exact ⟨p, q, hp, hq⟩

/-- All other questions are turned into records, or skipped, as before. -/
theorem results_replace {d : Definition} {i j : Nat} {p : Page} {q : Question}
    (page : d.pages[i]? = some p) (question : p.questions[j]? = some q) (w : Value) :
    ∃ before behind,
      d.results = before ++ Record.ofQuestion p.name q :: behind ∧
      (d.replace i j w).results =
        before ++ Record.ofQuestion p.name { q with metadata := w } :: behind := by
  obtain ⟨ps, ps', pages, otherPages⟩ := modify_split page (·.replace j w)
  obtain ⟨qs, qs', questions, otherQuestions⟩ :=
    modify_split question fun q => { q with metadata := w }
  refine ⟨ps.flatMap Page.results ++ qs.map (Record.ofQuestion p.name),
    qs'.map (Record.ofQuestion p.name) ++ ps'.flatMap Page.results, ?_, ?_⟩
  · rw [results, pages, List.flatMap_append, List.flatMap_cons, Page.results, questions]
    simp
  · rw [results, replace, otherPages, List.flatMap_append, List.flatMap_cons, Page.results,
      Page.replace, otherQuestions]
    simp

/-- A document of pages and questions is refused if and only if the metadata of a question cannot
be merged. With other metadata for one question everything else is as before. -/
theorem ofText_outline_iff {o : Outline} {text : String} (plain : o.Plain)
    (read : Value.ofString text = .ok o.document) :
    ((∃ d, ofText text = .ok d) ↔ o.Mergeable) ∧
    ∀ d, ofText text = .ok d → GivenBy o d ∧
      ∀ i j, o.Asks i j → ∀ m text', Value.ofString text' = .ok (o.replace i j m).document →
        ((∃ d', ofText text' = .ok d') ↔ m.Mergeable) ∧
        ∀ d', ofText text' = .ok d' → ∃ w, m.expand = .ok w ∧ d' = d.replace i j w ∧
          ∃ before r r' behind, d.results = before ++ r :: behind ∧
            d'.results = before ++ r' :: behind := by
  refine ⟨exists_ofText_iff plain read, fun d accepted => ?_⟩
  have given := givenBy_of_ofText plain read accepted
  refine ⟨given, fun i j asks m text' read' => ?_⟩
  have plain' := plain_replace plain i j m
  obtain ⟨page, hpage, question, hquestion, rfl⟩ := exists_replaced asks m
  have whole := exists_ofText_iff plain' read'
  have replaced : ∀ w, question.2.expand = .ok w → ofText text' = .ok (d.replace i j w) :=
    fun w expanded => (ofText_iff_givenBy plain' read').mpr (given.replace expanded i j)
  have expands : question.2.Mergeable → ∃ w, question.2.expand = .ok w :=
    expand_of_mergeable (wellKeyed_metadata read' hpage hquestion)
  constructor
  · constructor
    · intro accepted'
      exact whole.mp accepted' page hpage question hquestion
    · intro mergeable
      obtain ⟨w, expanded⟩ := expands mergeable
      exact ⟨_, replaced w expanded⟩
  · intro d' accepted'
    obtain ⟨w, expanded⟩ := expands (whole.mp ⟨d', accepted'⟩ page hpage question hquestion)
    obtain rfl := Except.ok.inj (accepted'.symm.trans (replaced w expanded))
    obtain ⟨p, q, hp, hq⟩ := given.exists_question asks
    obtain ⟨before, behind, results, others⟩ := results_replace hp hq w
    exact ⟨w, expanded, rfl, before, _, _, behind, results, others⟩

/-- A question whose metadata is a number gets fields, with merge keys below a tag and in a list. -/
theorem ofText_outline_iff_tagged :
    let text := "P:\n  A: \x7bkey: a\x7d\n  B: 5\n"
    let text' := "P:\n  A: \x7bkey: a\x7d\n  B: \x7bkey: b, f: !t [\x7b<<: [\x7bg: 1\x7d]\x7d]\x7d\n"
    let a : Value := .map [(.str "key", .str "a")]
    let o : Outline := [(.str "P", [(.str "A", a), (.str "B", .num (.int 5))])]
    let fields : Mapping := [(Mapping.mergeKey, .seq [.map [(.str "g", .num (.int 1))]])]
    let m : Value := .map [(.str "key", .str "b"), (.str "f", .tagged ⟨"t"⟩ (.seq [.map fields]))]
    let w : Value := .map [(.str "key", .str "b"),
      (.str "f", .tagged ⟨"t"⟩ (.seq [.map [(.str "g", .num (.int 1))]]))]
    o.Plain ∧ Value.ofString text = .ok o.document ∧
      Value.ofString text' = .ok (o.replace 0 1 m).document ∧ m.Mergeable ∧
      ofText text = .ok ⟨[⟨"P", [⟨"A", a⟩, ⟨"B", .num (.int 5)⟩]⟩]⟩ ∧
      ofText text' = .ok ⟨[⟨"P", [⟨"A", a⟩, ⟨"B", w⟩]⟩]⟩ := by
  intro text text' a o fields m w
  have plain : o.Plain := by decide
  have read : Value.ofString text = .ok o.document := eq_ok_of_toOption (by decide +kernel)
  have read' : Value.ofString text' = .ok (o.replace 0 1 m).document :=
    eq_ok_of_toOption (by decide +kernel)
  have accepted : ofText text = .ok ⟨[⟨"P", [⟨"A", a⟩, ⟨"B", .num (.int 5)⟩]⟩]⟩ :=
    eq_ok_of_toOption (by decide +kernel)
  have accepted' : ofText text' = .ok ⟨[⟨"P", [⟨"A", a⟩, ⟨"B", w⟩]⟩]⟩ :=
    eq_ok_of_toOption (by decide +kernel)
  obtain ⟨_, one⟩ := ofText_outline_iff plain read
  obtain ⟨mergeable, _⟩ := (one _ accepted).2 0 1 ⟨_, _, rfl, rfl⟩ m text' read'
  exact ⟨plain, read, read', mergeable.mp ⟨_, accepted'⟩, accepted, accepted'⟩

/-- A question with something at its merge key that is no mapping, behind one that is fine. -/
def malformedMerge : String := "P:\n  A: \x7bkey: a\x7d\n  B: \x7b<<: 5\x7d\n"

theorem malformedMerge_refused :
    let a : Question := ⟨"A", .map [(.str "key", .str "a")]⟩
    let o : Outline := [(.str "P", [(.str "A", a.metadata),
      (.str "B", .map [(Mapping.mergeKey, .num (.int 5))])])]
    o.Plain ∧ Value.ofString malformedMerge = .ok o.document ∧
      Record.ofQuestion "P" a = .ok ⟨"a.yml", [(.str "question", .str "A")]⟩ ∧
      o.document.expand = .error .scalar ∧ ∀ d, ofText malformedMerge ≠ .ok d := by
  intro a o
  have refused : (ofText malformedMerge).toOption = none := by decide +kernel
  refine ⟨by decide, eq_ok_of_toOption (by decide +kernel), eq_ok_of_toOption (by decide +kernel),
    rfl, fun d accepted => ?_⟩
  rw [accepted] at refused
  cases refused

end Definition
end Questionnaire
