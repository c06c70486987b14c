import Mathlib.Data.List.Forall2
import Questionnaire.Definition
import Questionnaire.Proofs.Decimal.Text
import Questionnaire.Proofs.Except
import Questionnaire.Proofs.Yaml.Equality
import Questionnaire.Proofs.Yaml.Mapping

/-!
Pages and questions are the entries of the mappings that they are read from, one for one and in
their order (`ofValue_eq_ok`). Their names are the texts of the keys; the text of a merge key is
that of no other key.
-/
namespace Questionnaire
open Yaml

deriving instance DecidableEq for Question, Page, Definition

/-- Null, a boolean, a number or a string. -/
def Yaml.Value.isScalar : Value → Bool
  | .seq _ | .map _ | .tagged .. => false
  | _ => true

/-- A question and the entry of a page that it is. -/
def Question.IsOf (e : Value × Value) (q : Question) : Prop :=
  Definition.keyText? e.1 = some q.text ∧ q.metadata = e.2

/-- A page and the entry of a document that it is. -/
def Page.IsOf (e : Value × Value) (p : Page) : Prop :=
  Definition.keyText? e.1 = some p.name ∧
    ∃ qs : Mapping, e.2 = .map qs ∧ List.Forall₂ Question.IsOf qs p.questions

namespace Definition

theorem questionsOf_eq_ok {page : String} {es : Mapping} {qs : List Question} :
    questionsOf page es = .ok qs ↔ List.Forall₂ Question.IsOf es qs := by
  induction es generalizing qs with
  | nil =>
    rw [questionsOf, List.forall₂_nil_left_iff]
    simp [eq_comm]
  | cons e es ih =>
    obtain ⟨k, v⟩ := e
    rw [questionsOf, List.forall₂_cons_left_iff]
    cases hk : keyText? k with
    | none => simp [Question.IsOf, hk]
    | some text =>
      constructor
      · intro h
        obtain ⟨rest, hes, h⟩ := bind_eq_ok.mp h
        cases h
        exact ⟨⟨text, v⟩, rest, ⟨hk, rfl⟩, ih.mp hes, rfl⟩
      · rintro ⟨q, rest, ⟨htext, hmetadata⟩, related, rfl⟩
        rw [hk, Option.some.injEq] at htext
        rw [ih.mpr related]
        cases q
        cases htext
        cases hmetadata
        rfl

theorem pagesOf_eq_ok {es : Mapping} {ps : List Page} :
    pagesOf es = .ok ps ↔ List.Forall₂ Page.IsOf es ps := by
  induction es generalizing ps with
  | nil =>
    rw [pagesOf, List.forall₂_nil_left_iff]
    simp [eq_comm]
  | cons e es ih =>
    obtain ⟨k, v⟩ := e
    rw [List.forall₂_cons_left_iff]
    cases hk : keyText? k with
    | none => simp [pagesOf, Page.IsOf, hk]
    | some name =>
      cases v with
      | map questions =>
        simp only [pagesOf, hk]
        constructor
        · intro h
          obtain ⟨qs, hqs, h⟩ := bind_eq_ok.mp h
          obtain ⟨rest, hes, h⟩ := bind_eq_ok.mp h
          cases h
          exact ⟨⟨name, qs⟩, rest, ⟨hk, questions, rfl, questionsOf_eq_ok.mp hqs⟩, ih.mp hes, rfl⟩
        · rintro ⟨⟨pageName, qs⟩, rest, ⟨hname, fields, hfields, asked⟩, related, rfl⟩
          cases hfields
          rw [hk, Option.some.injEq] at hname
          cases hname
          rw [questionsOf_eq_ok.mpr asked, ih.mpr related]
          rfl
      | _ => simp [pagesOf, hk, Page.IsOf]

theorem ofValue_eq_ok {v : Value} {d : Definition} :
    ofValue v = .ok d ↔ ∃ es : Mapping, v = .map es ∧ List.Forall₂ Page.IsOf es d.pages := by
  cases v with
  | map es =>
    rw [ofValue]
    constructor
    · intro h
      obtain ⟨ps, hes, h⟩ := bind_eq_ok.mp h
      cases h
      exact ⟨es, rfl, pagesOf_eq_ok.mp hes⟩
    · rintro ⟨fs, hfs, related⟩
      cases hfs
      rw [pagesOf_eq_ok.mpr related]
      rfl
  | _ => simp [ofValue]

theorem ofText_eq_ok {text : String} {d : Definition} :
    ofText text = .ok d ↔
      ∃ v w, Value.ofString text = .ok v ∧ v.expand = .ok w ∧ ofValue w = .ok d := by
  simp only [ofText, bind_eq_ok, mapError_eq_ok]
  constructor
  · rintro ⟨v, hv, w, hw, hd⟩
    exact ⟨v, w, hv, hw, hd⟩
  · rintro ⟨v, w, hv, hw, hd⟩
    exact ⟨v, hv, w, hw, hd⟩

theorem keyText?_ne_none {key : Value} : keyText? key ≠ none ↔ key.isScalar := by
  cases key <;> simp [keyText?, Value.scalarText?, Value.isScalar]

/-- A text that is no number, no boolean and not `null` is that of one key. -/
theorem keyText?_eq_mergeKey {key : Value} :
    keyText? key = some "<<" ↔ key = .str "<<" := by
  cases key with
  | null => simp [keyText?]
  | bool b => cases b <;> simp [keyText?, Value.scalarText?]
  | num n =>
    have other : n.text ≠ "<<" := by
      intro h
      have numeric := n.numeric_text
      rw [h] at numeric
      exact absurd numeric (by decide)
    simpa [keyText?, Value.scalarText?] using other
  | str s => simp [keyText?, Value.scalarText?]
  | seq items => simp [keyText?, Value.scalarText?]
  | map es => simp [keyText?, Value.scalarText?]
  | tagged tag v => simp [keyText?, Value.scalarText?]

end Definition
end Questionnaire
