import Mathlib.Algebra.GroupWithZero.Nat
import Questionnaire.Proofs.Definition.Malformed
import Questionnaire.Proofs.Yaml.Mergeable

/-!
The shape of a document, its merge keys expanded. It is a definition exactly when it is a mapping of
mappings whose keys are scalars, and then nothing of it is lost, two keys of one text least of all.
Where it is none, the error is about the first of its pieces that does not fit (`ofText_shape`).
-/
namespace Questionnaire
open Yaml

namespace Yaml.Value

/-- The text of a scalar. -/
inductive Spells : Value → String → Prop
  | null : Spells .null "null"
  | bool (b : Bool) : Spells (.bool b) (toString b)
  | num (n : Number) : Spells (.num n) n.text
  | str (s : String) : Spells (.str s) s

/-- What a mapping holds. -/
def entries : Value → Mapping
  | .map es => es
  | _ => []

/-- A mapping of mappings, all of whose keys are scalars. -/
def HoldsPages (v : Value) : Prop :=
  ∃ es : Mapping, v = .map es ∧
    ∀ p ∈ es, p.1.isScalar ∧ ∃ qs : Mapping, p.2 = .map qs ∧ ∀ q ∈ qs, q.1.isScalar

end Yaml.Value

namespace Definition

/-- What is looked at in a document. The key of its page goes with a piece of a page. -/
inductive Piece
  | document (v : Value)
  | pageName (key : Value)
  | page (key v : Value)
  | questionText (page key : Value)

namespace Piece

def Fits : Piece → Prop
  | .document v => v.IsMapping
  | .pageName key => key.isScalar
  | .page _ v => v.IsMapping
  | .questionText _ key => key.isScalar

/-- The error that is about a piece. -/
inductive Blames : Piece → DefinitionError → Prop
  | document (v : Value) : Blames (.document v) (.noMapping v)
  | pageName (key : Value) : Blames (.pageName key) (.badPageName key)
  | page {key : Value} {name : String} (v : Value) :
      key.Spells name → Blames (.page key v) (.badPage name v)
  | questionText {page : Value} {name : String} (key : Value) :
      page.Spells name → Blames (.questionText page key) (.badQuestionText name key)

/-- The pieces of a page: its key comes before its value, and its value before its questions. -/
def ofPage (p : Value × Value) : List Piece :=
  .pageName p.1 :: .page p.1 p.2 :: p.2.entries.map fun q => .questionText p.1 q.1

/-- The pieces of a document, page after page. -/
def ofDocument (v : Value) : List Piece := .document v :: v.entries.flatMap ofPage

/-- The error is about the first piece that does not fit. -/
def FirstFault (pieces : List Piece) (e : DefinitionError) : Prop :=
  Finds Fits (fun piece => ¬ piece.Fits ∧ piece.Blames e) pieces

variable {piece : Piece} {pieces others : List Piece} {e : DefinitionError}

theorem firstFault_cons_of_fits (fits : piece.Fits) :
    FirstFault (piece :: pieces) e ↔ FirstFault pieces e := by
  rw [FirstFault, finds_cons, FirstFault]
  simp [fits]

theorem firstFault_cons_of_not_fits (bad : ¬ piece.Fits) :
    FirstFault (piece :: pieces) e ↔ piece.Blames e := by
  rw [FirstFault, finds_cons]
  simp [bad]

/-- Later pieces are come to only when all earlier ones fit. -/
theorem firstFault_append : FirstFault (pieces ++ others) e ↔
    FirstFault pieces e ∨ (∀ p ∈ pieces, p.Fits) ∧ FirstFault others e := finds_append

end Piece
open Piece

theorem keyText?_eq_some {key : Value} {text : String} :
    keyText? key = some text ↔ key.Spells text := by
  constructor
  · intro h
    cases key with
    | null => cases h; exact .null
    | bool b =>
      have spelt : toString b = text := by cases b <;> exact Option.some.inj h
      exact spelt ▸ .bool b
    | num n => cases h; exact .num n
    | str s => cases h; exact .str _
    | _ => cases h
  · intro spells
    cases spells with
    | null => rfl
    | bool b => cases b <;> rfl
    | num n => rfl
    | str s => rfl

theorem keyText?_eq_none {key : Value} : keyText? key = none ↔ ¬ key.isScalar := by
  rw [← keyText?_ne_none, not_not]

theorem questionsOf_eq_error {key : Value} {name : String} (named : key.Spells name)
    {es : Mapping} {e : DefinitionError} :
    questionsOf name es = .error e ↔ FirstFault (es.map fun q => .questionText key q.1) e := by
  induction es with
  | nil => simp [questionsOf, FirstFault, finds_nil]
  | cons q es ih =>
    obtain ⟨k, v⟩ := q
    rw [List.map_cons, questionsOf]
    cases hk : keyText? k with
    | none =>
      have bad : ¬ (Piece.questionText key k).Fits := keyText?_eq_none.mp hk
      rw [firstFault_cons_of_not_fits bad]
      constructor
      · intro h
        cases h
        exact .questionText k named
      · rintro (_ | _ | _ | ⟨_, named'⟩)
        have same := (keyText?_eq_some.mpr named).symm.trans (keyText?_eq_some.mpr named')
        cases same
        rfl
    | some text =>
      have fits : (Piece.questionText key k).Fits := keyText?_ne_none.mp (by simp [hk])
      rw [firstFault_cons_of_fits fits, ← ih]
      simp [bind_eq_error, pure, Except.pure]

theorem exists_questionsOf (name : String) {key : Value} {es : Mapping} :
    (∃ qs, questionsOf name es = .ok qs) ↔
      ∀ p ∈ es.map fun q => Piece.questionText key q.1, p.Fits := by
  simp only [questionsOf_eq_ok, exists_forall₂, exists_question, keyText?_ne_none,
    List.forall_mem_map, Fits]

theorem pagesOf_eq_error {es : Mapping} {e : DefinitionError} :
    pagesOf es = .error e ↔ FirstFault (es.flatMap ofPage) e := by
  induction es with
  | nil => simp [pagesOf, FirstFault, finds_nil]
  | cons p es ih =>
    obtain ⟨k, v⟩ := p
    rw [List.flatMap_cons, ofPage, List.cons_append, List.cons_append]
    cases hk : keyText? k with
    | none =>
      have bad : ¬ (Piece.pageName k).Fits := keyText?_eq_none.mp hk
      rw [firstFault_cons_of_not_fits bad]
      simp only [pagesOf, hk]
      constructor
      · intro h
        cases h
        exact .pageName k
      · rintro ⟨_⟩
        rfl
    | some name =>
      have named : k.Spells name := keyText?_eq_some.mp hk
      have fits : (Piece.pageName k).Fits := keyText?_ne_none.mp (by simp [hk])
      rw [firstFault_cons_of_fits fits]
      by_cases mapping : v.IsMapping
      · have value : (Piece.page k v).Fits := mapping
        rw [firstFault_cons_of_fits value, firstFault_append, ← ih]
        obtain ⟨qs, rfl⟩ := mapping
        rw [Value.entries, ← questionsOf_eq_error named, ← exists_questionsOf name]
        simp [pagesOf, hk, bind_eq_error, pure, Except.pure]
      · have value : ¬ (Piece.page k v).Fits := mapping
        have refused : pagesOf ((k, v) :: es) = .error (.badPage name v) := by
          cases v with
          | map qs => exact absurd ⟨qs, rfl⟩ mapping
          | _ => simp [pagesOf, hk]
        rw [firstFault_cons_of_not_fits value, refused]
        constructor
        · intro h
          cases h
          exact .page v named
        · rintro (_ | _ | ⟨_, named'⟩)
          have same := hk.symm.trans (keyText?_eq_some.mpr named')
          cases same
          rfl

theorem ofValue_eq_error {v : Value} {e : DefinitionError} :
    ofValue v = .error e ↔ FirstFault (ofDocument v) e := by
  rw [ofDocument]
  by_cases mapping : v.IsMapping
  · have document : (Piece.document v).Fits := mapping
    rw [firstFault_cons_of_fits document]
    obtain ⟨es, rfl⟩ := mapping
    rw [Value.entries, ← pagesOf_eq_error]
    simp [ofValue, bind_eq_error, pure, Except.pure]
  · have document : ¬ (Piece.document v).Fits := mapping
    have refused : ofValue v = .error (.noMapping v) := by
      cases v with
      | map es => exact absurd ⟨es, rfl⟩ mapping
      | _ => rfl
    rw [firstFault_cons_of_not_fits document, refused]
    constructor
    · intro h
      cases h
      exact .document v
    · rintro ⟨_⟩
      rfl

theorem exists_ofValue {v : Value} : (∃ d, ofValue v = .ok d) ↔ v.HoldsPages := by
  simp only [ofValue_eq_ok, Value.HoldsPages, ← keyText?_ne_none, ← exists_page, ← exists_forall₂]
  constructor
  · rintro ⟨d, es, rfl, pages⟩
    exact ⟨es, rfl, d.pages, pages⟩
  · rintro ⟨es, rfl, ps, pages⟩
    exact ⟨⟨ps⟩, es, rfl, pages⟩

theorem questionCount_eq {es : Mapping} {d : Definition}
    (pages : List.Forall₂ Page.IsOf es d.pages) :
    d.questionCount = (es.map fun p => p.2.entries.length).sum := by
  rw [questionCount, List.length_flatMap]
  congr 1
  generalize d.pages = ps at pages
  induction pages with
  | nil => rfl
  | cons first _ ih =>
    obtain ⟨_, qs, fields, asked⟩ := first
    rw [List.map_cons, List.map_cons, ih, fields, Value.entries, asked.length_eq]

/-- A document is a definition exactly when it has the shape of one. Its pages and questions are
then the entries, one for one and in their order. If it is none the first fault is told. -/
theorem ofText_shape {text : String} {v w : Value} (read : Value.ofString text = .ok v)
    (expanded : v.expand = .ok w) :
    ((∃ d, ofText text = .ok d) ↔ w.HoldsPages) ∧
    (∀ d, ofText text = .ok d → ∃ es : Mapping, w = .map es ∧
      List.Forall₂ (fun e p => e.1.Spells p.name ∧ ∃ qs : Mapping, e.2 = .map qs ∧
        List.Forall₂ (fun f q => f.1.Spells q.text ∧ q.metadata = f.2) qs p.questions) es d.pages ∧
      d.questionCount = (es.map fun e => e.2.entries.length).sum) ∧
    ∀ e, ofText text = .error e ↔ FirstFault (ofDocument w) e := by
  have whole : ofText text = ofValue w := by
    rw [ofText, read]
    change (v.expand.mapError DefinitionError.unmergeable >>= ofValue) = _
    rw [expanded]
    rfl
  rw [whole]
  refine ⟨exists_ofValue, fun d defined => ?_, fun e => ofValue_eq_error⟩
  obtain ⟨es, rfl, pages⟩ := ofValue_eq_ok.mp defined
  refine ⟨es, rfl, pages.imp ?_, questionCount_eq pages⟩
  rintro e p ⟨name, qs, fields, asked⟩
  refine ⟨keyText?_eq_some.mp name, qs, fields, asked.imp ?_⟩
  rintro f q ⟨spelt, metadata⟩
  exact ⟨keyText?_eq_some.mp spelt, metadata⟩

/-- Keys of one text stay two entries. Of three faults on two pages the first is told. -/
theorem ofText_shape_faults :
    let text := "1: \x7b~: \x7bkey: a\x7d, 'null': 5\x7d\n'1': \x7b\x7d\ntrue: \x7b2.50: []\x7d\n"
    let d : Definition := ⟨[⟨"1", [⟨"null", .map [(.str "key", .str "a")]⟩,
      ⟨"null", .num (.int 5)⟩]⟩, ⟨"1", []⟩, ⟨"true", [⟨"2.5", .seq []⟩]⟩]⟩
    let text' := "A: \x7bq: 1\x7d\nB: \x7bq: 1, [x]: 2, ? \x7b\x7d : 3\x7d\n[y]: 4\n"
    ofText text = .ok d ∧ d.questionCount = 3 ∧
      ofText text' = .error (.badQuestionText "B" (.seq [.str "x"])) := by
  intro text d text'
  have accepted : ofText text = .ok d := eq_ok_of_toOption (by decide +kernel)
  refine ⟨accepted, rfl, ?_⟩
  let v : Value := .map [(.str "A", .map [(.str "q", .num (.int 1))]),
    (.str "B", .map [(.str "q", .num (.int 1)), (.seq [.str "x"], .num (.int 2)),
      (.map [], .num (.int 3))]), (.seq [.str "y"], .num (.int 4))]
  have read : Value.ofString text' = .ok v := eq_ok_of_toOption (by decide +kernel)
  have expanded : v.expand = .ok v := eq_ok_of_toOption (by decide +kernel)
  obtain ⟨_, _, faults⟩ := ofText_shape read expanded
  refine (faults _).mpr ⟨_ :: _ :: _ :: _ :: _ :: _ :: [_], _, _, rfl, ?_, ?_, ?_⟩
  · simp [v, Fits, Value.IsMapping, Value.isScalar]
  · simp [Fits, Value.isScalar]
  · exact .questionText _ (.str "B")

end Definition
end Questionnaire
