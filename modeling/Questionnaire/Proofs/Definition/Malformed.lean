import Questionnaire.Proofs.Definition
import Questionnaire.Proofs.Files.Target

/-!
What is no definition. The shape of a document is right if each entry of each page is, so one entry
anywhere is enough to spoil the file, however many good pages stand before it (`ofText_fails`); a
path does not load if it leads to no file, to one that is no text, or to such a text (`load_fails`).
-/
namespace Questionnaire
open Files Yaml

theorem exists_forall₂ {α β : Type} {R : α → β → Prop} {as : List α} :
    (∃ bs, List.Forall₂ R as bs) ↔ ∀ a ∈ as, ∃ b, R a b := by
  constructor
  · rintro ⟨bs, related⟩ a ha
    induction related with
    | nil => cases ha
    | cons first _ ih =>
      rcases List.mem_cons.mp ha with rfl | ha
      · exact ⟨_, first⟩
      · exact ih ha
  · intro all
    induction as with
    | nil => exact ⟨[], .nil⟩
    | cons a as ih =>
      obtain ⟨b, first⟩ := all a List.mem_cons_self
      obtain ⟨bs, rest⟩ := ih fun a ha => all a (List.mem_cons_of_mem _ ha)
      exact ⟨b :: bs, .cons first rest⟩

theorem exists_error_iff {ε α : Type} {r : Except ε α} :
    (∃ e, r = .error e) ↔ ¬ ∃ a, r = .ok a := by
  cases r <;> simp

namespace Definition

/-- Why a text holds no definition. -/
inductive Malformed (text : String) : Prop
  | unreadable {e : ReadError} : Value.ofString text = .error e → Malformed text
  | unmergeable {v : Value} {e : MergeError} :
      Value.ofString text = .ok v → v.expand = .error e → Malformed text
  | noMapping {v w : Value} :
      Value.ofString text = .ok v → v.expand = .ok w → (∀ es, w ≠ .map es) → Malformed text
  | pageName {v : Value} {es : Mapping} {page : Value × Value} :
      Value.ofString text = .ok v → v.expand = .ok (.map es) → page ∈ es →
      keyText? page.1 = none → Malformed text
  | page {v : Value} {es : Mapping} {page : Value × Value} :
      Value.ofString text = .ok v → v.expand = .ok (.map es) → page ∈ es →
      (∀ qs, page.2 ≠ .map qs) → Malformed text
  | questionText {v : Value} {es qs : Mapping} {page question : Value × Value} :
      Value.ofString text = .ok v → v.expand = .ok (.map es) → page ∈ es →
      page.2 = .map qs → question ∈ qs → keyText? question.1 = none → Malformed text

/-- Why nothing can be loaded from a path. -/
inductive Unloadable (t : Tree) (path : String) : Prop
  | noFile : (∀ place, t.target? path = some place → ∀ content,
      t.node? place ≠ some (.file content)) → Unloadable t path
  | noText {place : List String} {content : ByteArray} :
      t.target? path = some place → t.node? place = some (.file content) →
      String.fromUTF8? content = none → Unloadable t path
  | malformed {place : List String} {content : ByteArray} {text : String} :
      t.target? path = some place → t.node? place = some (.file content) →
      String.fromUTF8? content = some text → Malformed text → Unloadable t path

theorem exists_question {e : Value × Value} :
    (∃ q, Question.IsOf e q) ↔ keyText? e.1 ≠ none := by
  rw [ne_eq, ← Option.isNone_iff_eq_none, Bool.not_eq_true, Option.isNone_eq_false_iff,
    Option.isSome_iff_exists]
  constructor
  · rintro ⟨q, text, _⟩
    exact ⟨q.text, text⟩
  · rintro ⟨text, h⟩
    exact ⟨⟨text, e.2⟩, h, rfl⟩

theorem exists_page {e : Value × Value} :
    (∃ p, Page.IsOf e p) ↔ keyText? e.1 ≠ none ∧
      ∃ qs : Mapping, e.2 = .map qs ∧ ∀ q ∈ qs, keyText? q.1 ≠ none := by
  constructor
  · rintro ⟨p, name, qs, fields, asked⟩
    refine ⟨fun none => Option.some_ne_none _ (name.symm.trans none), qs, fields, fun q hq => ?_⟩
    exact exists_question.mp (exists_forall₂.mp ⟨_, asked⟩ q hq)
  · rintro ⟨named, qs, fields, texts⟩
    obtain ⟨name, hname⟩ := Option.ne_none_iff_exists'.mp named
    obtain ⟨questions, asked⟩ := exists_forall₂.mpr fun q hq => exists_question.mpr (texts q hq)
    exact ⟨⟨name, questions⟩, hname, qs, fields, asked⟩

section
variable {text : String}

/-- A text holds a definition if each entry of each page is as it should be. -/
theorem exists_ofText : (∃ d, ofText text = .ok d) ↔ ∃ v es, Value.ofString text = .ok v ∧
    v.expand = .ok (.map es) ∧ ∀ page ∈ es, keyText? page.1 ≠ none ∧
      ∃ qs : Mapping, page.2 = .map qs ∧ ∀ q ∈ qs, keyText? q.1 ≠ none := by
  simp only [ofText_eq_ok, ofValue_eq_ok, ← exists_page, ← exists_forall₂]
  constructor
  · rintro ⟨d, v, w, read, merged, es, rfl, related⟩
    exact ⟨v, es, read, merged, d.pages, related⟩
  · rintro ⟨v, es, read, merged, ps, related⟩
    exact ⟨⟨ps⟩, v, _, read, merged, es, rfl, related⟩

theorem Malformed.not_exists_ofText (bad : Malformed text) : ¬ ∃ d, ofText text = .ok d := by
  rw [exists_ofText]
  rintro ⟨v, es, read, merged, pages⟩
  cases bad with
  | unreadable read' => rw [read] at read'; cases read'
  | unmergeable read' merged' =>
    cases read.symm.trans read'
    rw [merged] at merged'
    cases merged'
  | noMapping read' merged' other =>
    cases read.symm.trans read'
    cases merged.symm.trans merged'
    exact other es rfl
  | pageName read' merged' hpage none =>
    cases read.symm.trans read'
    cases merged.symm.trans merged'
    exact (pages _ hpage).1 none
  | page read' merged' hpage other =>
    cases read.symm.trans read'
    cases merged.symm.trans merged'
    obtain ⟨_, qs, hqs, _⟩ := pages _ hpage
    exact other qs hqs
  | questionText read' merged' hpage hqs hq none =>
    cases read.symm.trans read'
    cases merged.symm.trans merged'
    obtain ⟨_, qs, hqs', texts⟩ := pages _ hpage
    cases hqs.symm.trans hqs'
    exact texts _ hq none

theorem malformed_of_not_exists (fails : ¬ ∃ d, ofText text = .ok d) : Malformed text := by
  rw [exists_ofText] at fails
  cases read : Value.ofString text with
  | error e => exact .unreadable read
  | ok v =>
    cases merged : v.expand with
    | error e => exact .unmergeable read merged
    | ok w =>
      by_cases mapping : ∃ es, w = .map es
      · obtain ⟨es, rfl⟩ := mapping
        -- Some page is not as it should be.
        by_contra fine
        refine fails ⟨v, es, read, merged, fun page hpage => ⟨fun none => ?_, ?_⟩⟩
        · exact fine (.pageName read merged hpage none)
        · by_cases questions : ∃ qs, page.2 = .map qs
          · obtain ⟨qs, hqs⟩ := questions
            exact ⟨qs, hqs, fun q hq none => fine (.questionText read merged hpage hqs hq none)⟩
          · exact absurd (.page read merged hpage (not_exists.mp questions)) fine
      · exact .noMapping read merged (not_exists.mp mapping)

theorem ofText_fails : (∃ e, ofText text = .error e) ↔ Malformed text :=
  exists_error_iff.trans ⟨malformed_of_not_exists, Malformed.not_exists_ofText⟩

end

theorem load_eq_ok {t : Tree} {path : String} {d : Definition} :
    load t path = .ok d ↔ ∃ text, t.readText path = .ok text ∧ ofText text = .ok d := by
  simp only [load, bind_eq_ok, mapError_eq_ok]

theorem load_fails {t : Tree} {path : String} :
    (∃ e, load t path = .error e) ↔ Unloadable t path := by
  have well : ∀ text, ¬ Malformed text ↔ ∃ d, ofText text = .ok d := by
    intro text
    rw [← ofText_fails, exists_error_iff, not_not]
  rw [exists_error_iff]
  simp only [load_eq_ok, Tree.readText_eq_ok]
  constructor
  · intro fails
    by_cases file : ∃ place content, t.target? path = some place ∧
        t.node? place = some (.file content)
    · obtain ⟨place, content, target, node⟩ := file
      cases decoded : String.fromUTF8? content with
      | none => exact .noText target node decoded
      | some text =>
        refine .malformed target node decoded ?_
        by_contra fine
        obtain ⟨d, hd⟩ := (well text).mp fine
        exact fails ⟨d, text, ⟨place, content, target, node, decoded⟩, hd⟩
    · exact .noFile fun place target content node => file ⟨place, content, target, node⟩
  · rintro bad ⟨d, text, ⟨place, content, target, node, decoded⟩, hd⟩
    cases bad with
    | noFile absent => exact absent place target content node
    | noText target' node' undecoded =>
      cases target.symm.trans target'
      cases node.symm.trans node'
      rw [decoded] at undecoded
      cases undecoded
    | malformed target' node' decoded' bad =>
      cases target.symm.trans target'
      cases node.symm.trans node'
      cases decoded.symm.trans decoded'
      exact absurd bad ((well text).mpr ⟨d, hd⟩)

end Definition
end Questionnaire
