import Questionnaire.Proofs.Definition
import Questionnaire.Proofs.Record
import Questionnaire.Proofs.Yaml.Order

/-!
The order of pages, questions and fields. Pages and questions come one for one from the entries of
the document, in the order that these have when their merge keys are expanded (`ofText_comesFrom`).
So all that a document has of its own stays in order exactly when at most one entry stands behind
each merge key, the key of a question not being counted (`inOrder_iff`).
-/
namespace Questionnaire
open Yaml

/-- The entry of a document from which a question comes. -/
def Question.ComesFrom (e : Value × Value) (q : Question) : Prop :=
  Definition.keyText? e.1 = some q.text ∧ e.2.expand = .ok q.metadata

/-- The entry of a document from which a page comes. -/
def Page.ComesFrom (e : Value × Value) (p : Page) : Prop :=
  Definition.keyText? e.1 = some p.name ∧
    ∃ qs : Mapping, e.2 = .map qs ∧ List.Forall₂ Question.ComesFrom qs.merged p.questions

namespace Definition

theorem page_comesFrom {e e' : Value × Value} {p : Page} (he : e.2.WellKeyed)
    (become : Becomes e e') (page : Page.IsOf e' p) : Page.ComesFrom e p := by
  obtain ⟨name, qs', hqs', asked⟩ := page
  obtain ⟨key, expanded⟩ := become
  rw [hqs'] at expanded
  obtain ⟨qs, hqs, become⟩ := eq_map_of_expand he expanded
  refine ⟨key ▸ name, qs, hqs, forall₂_comp become asked fun f _ f' q made question => ?_⟩
  exact ⟨made.1 ▸ question.1, question.2 ▸ made.2⟩

theorem ofText_comesFrom {text : String} {d : Definition} (accepted : ofText text = .ok d) :
    ∃ root : Mapping, Value.ofString text = .ok (.map root) ∧
      List.Forall₂ Page.ComesFrom root.merged d.pages := by
  obtain ⟨v, w, read, expanded, defined⟩ := ofText_eq_ok.mp accepted
  obtain ⟨es, rfl, pages⟩ := ofValue_eq_ok.mp defined
  have hv := wellKeyed_ofString read
  obtain ⟨root, rfl, become⟩ := eq_map_of_expand hv expanded
  refine ⟨root, read, forall₂_comp become pages fun e he e' p made page => ?_⟩
  exact page_comesFrom (wellKeyed_merged hv he).2 made page

/-- A mapping and what comes from it stand at one place of two lists. -/
def Meets {α : Type} (es : Mapping) (as : List α) (fs : Mapping) (a : α) : Prop :=
  ∃ k, ((k, Value.map fs), a) ∈ es.merged.zip as

/-- What a document has of its own is in its order: its pages, the questions of each page, and but
for the key the fields of each question in its record. -/
structure InOrder (root : Mapping) (d : Definition) : Prop where
  pages : (root.own.map Prod.fst).Sublist (root.merged.map Prod.fst)
  questions : ∀ qs p, Meets root d.pages qs p →
    (qs.own.map Prod.fst).Sublist (qs.merged.map Prod.fst)
  fields : ∀ qs p, Meets root d.pages qs p → ∀ fs q, Meets qs p.questions fs q →
    ∀ r, Record.ofQuestion p.name q = .ok r →
      ((fs.own.map Prod.fst).filter (!Record.keyField.same ·)).Sublist (r.fields.map Prod.fst)

/-- At most one entry stands behind each merge key. Behind that of a question with a record the key
may stand in front of that entry, and if the key comes last any number may stand before it. -/
structure MergesLast (root : Mapping) (d : Definition) : Prop where
  pages : root.behind.length ≤ 1
  questions : ∀ qs p, Meets root d.pages qs p → qs.behind.length ≤ 1
  fields : ∀ qs p, Meets root d.pages qs p → ∀ fs q, Meets qs p.questions fs q →
    ∀ r, Record.ofQuestion p.name q = .ok r →
      LastAlone Record.keyField.same (fs.behind.map Prod.fst)

theorem keys_inOrder_iff {es : Mapping} (h : (Value.map es).WellKeyed) :
    (es.own.map Prod.fst).Sublist (es.merged.map Prod.fst) ↔ es.behind.length ≤ 1 := by
  have all : ∀ l : List Value, l.filter (fun _ => !false) = l := fun l => by simp
  have inOrder := @Mapping.ownInOrder_iff es h (fun _ => false) [] (by simp)
  rw [List.append_nil, all, all, lastAlone_none, List.length_map] at inOrder
  exact inOrder

theorem record_inOrder_iff {page : String} {q : Question} {r : Record} {fs : Mapping}
    (h : (Value.map fs).WellKeyed) (metadata : (Value.map fs).expand = .ok q.metadata)
    (hr : Record.ofQuestion page q = .ok r) :
    ((fs.own.map Prod.fst).filter (!Record.keyField.same ·)).Sublist (r.fields.map Prod.fst) ↔
      LastAlone Record.keyField.same (fs.behind.map Prod.fst) := by
  obtain ⟨gs, _, _, hgs, _, _, rfl⟩ := Record.ofQuestion_eq_ok.mp hr
  rw [hgs] at metadata
  obtain ⟨fs', hfs', become⟩ := eq_map_of_expand h metadata
  cases hfs'
  have keys := becomes_keys become
  have nodup : (gs.map Prod.fst).Nodup := by
    rw [keys]
    exact Mapping.nodup_merged h
  have once : gs.Pairwise fun e f => e.1 = Record.keyField → f.1 ≠ Record.keyField :=
    (List.pairwise_map.mp nodup).imp fun apart first second => apart (first.trans second.symm)
  have kept : (if Mapping.contains Record.questionField gs then [] else
      [Record.questionField]).filter (!Record.keyField.same ·) =
        if Mapping.contains Record.questionField gs then [] else [Record.questionField] := by
    split <;> rfl
  rw [Record.keys_record once, ← kept, ← List.filter_append, keys]
  refine Mapping.ownInOrder_iff h Record.keyField.same fun k new there => ?_
  split at new
  · cases new
  · rename_i absent
    obtain rfl := List.mem_singleton.mp new
    refine absent (Mapping.contains_str.mpr ?_)
    rw [keys]
    exact List.map_subset Prod.fst (Mapping.own_subset_merged h) there

theorem wellKeyed_meets {α : Type} {es fs : Mapping} {as : List α} {a : α}
    (h : (Value.map es).WellKeyed) (meets : Meets es as fs a) : (Value.map fs).WellKeyed := by
  obtain ⟨k, mem⟩ := meets
  exact (wellKeyed_merged h (List.of_mem_zip mem).1).2

theorem inOrder_iff {root : Mapping} {d : Definition} (h : (Value.map root).WellKeyed)
    (pages : List.Forall₂ Page.ComesFrom root.merged d.pages) :
    InOrder root d ↔ MergesLast root d := by
  have asked : ∀ qs p, Meets root d.pages qs p →
      List.Forall₂ Question.ComesFrom qs.merged p.questions := by
    rintro qs p ⟨k, mem⟩
    obtain ⟨_, qs', hqs, asked⟩ := List.forall₂_zip pages mem
    cases hqs
    exact asked
  have expanded : ∀ qs p, Meets root d.pages qs p → ∀ fs q, Meets qs p.questions fs q →
      (Value.map fs).WellKeyed ∧ (Value.map fs).expand = .ok q.metadata := by
    intro qs p hp fs q hq
    refine ⟨wellKeyed_meets (wellKeyed_meets h hp) hq, ?_⟩
    obtain ⟨k, mem⟩ := hq
    exact (List.forall₂_zip (asked qs p hp) mem).2
  constructor
  · intro inOrder
    refine ⟨(keys_inOrder_iff h).mp inOrder.pages, fun qs p hp => ?_,
      fun qs p hp fs q hq r hr => ?_⟩
    · exact (keys_inOrder_iff (wellKeyed_meets h hp)).mp (inOrder.questions qs p hp)
    · obtain ⟨hfs, metadata⟩ := expanded qs p hp fs q hq
      exact (record_inOrder_iff hfs metadata hr).mp (inOrder.fields qs p hp fs q hq r hr)
  · intro last
    refine ⟨(keys_inOrder_iff h).mpr last.pages, fun qs p hp => ?_,
      fun qs p hp fs q hq r hr => ?_⟩
    · exact (keys_inOrder_iff (wellKeyed_meets h hp)).mpr (last.questions qs p hp)
    · obtain ⟨hfs, metadata⟩ := expanded qs p hp fs q hq
      exact (record_inOrder_iff hfs metadata hr).mpr (last.fields qs p hp fs q hq r hr)

/-- Pages, questions and fields come in the order of the text if and only if nothing is turned round
behind a merge key. -/
theorem ofText_inOrder_iff {text : String} {d : Definition} (accepted : ofText text = .ok d) :
    ∃ root : Mapping, Value.ofString text = .ok (.map root) ∧
      List.Forall₂ Page.ComesFrom root.merged d.pages ∧ (InOrder root d ↔ MergesLast root d) := by
  obtain ⟨root, read, pages⟩ := ofText_comesFrom accepted
  exact ⟨root, read, pages, inOrder_iff (wellKeyed_ofString read) pages⟩

theorem ofText_inOrder_iff_last :
    let text := "P:\n  Q: \x7bkey: k, a: 1, <<: \x7bc: 3\x7d, b: 2\x7d\n"
    let d : Definition := ⟨[⟨"P", [⟨"Q", .map [(.str "key", .str "k"), (.str "a", .num (.int 1)),
      (.str "b", .num (.int 2)), (.str "c", .num (.int 3))]⟩]⟩]⟩
    ofText text = .ok d ∧
      ∃ root : Mapping, Value.ofString text = .ok (.map root) ∧
        List.Forall₂ Page.ComesFrom root.merged d.pages ∧
        (InOrder root d ↔ MergesLast root d) := by
  intro text d
  have accepted : ofText text = .ok d := eq_ok_of_toOption (by decide +kernel)
  exact ⟨accepted, ofText_inOrder_iff accepted⟩

/-- A question with a merge key before all its fields. -/
def mergeFirst : String := "P:\n  Q: \x7b<<: \x7ba: 0\x7d, key: k, a: 1, b: 2\x7d\n"

theorem mergeFirst_turned :
    let one : Value := .num (.int 1)
    let two : Value := .num (.int 2)
    let fields : Mapping := [(Mapping.mergeKey, .map [(.str "a", .num (.int 0))]),
      (.str "key", .str "k"), (.str "a", one), (.str "b", two)]
    let root : Mapping := [(.str "P", .map [(.str "Q", .map fields)])]
    let q : Question := ⟨"Q", .map [(.str "b", two), (.str "key", .str "k"), (.str "a", one)]⟩
    let d : Definition := ⟨[⟨"P", [q]⟩]⟩
    Value.ofString mergeFirst = .ok (.map root) ∧ ofText mergeFirst = .ok d ∧
      Record.ofQuestion "P" q =
        .ok ⟨"k.yml", [(.str "b", two), (.str "a", one), (.str "question", .str "Q")]⟩ ∧
      ¬ InOrder root d := by
  intro one two fields root q d
  have record : Record.ofQuestion "P" q =
      .ok ⟨"k.yml", [(.str "b", two), (.str "a", one), (.str "question", .str "Q")]⟩ :=
    eq_ok_of_toOption (by decide +kernel)
  refine ⟨eq_ok_of_toOption (by decide +kernel), eq_ok_of_toOption (by decide +kernel), record,
    fun inOrder => ?_⟩
  have page : Meets root d.pages [(.str "Q", .map fields)] ⟨"P", [q]⟩ :=
    ⟨.str "P", by decide +kernel⟩
  have question : Meets [(.str "Q", .map fields)] [q] fields q := ⟨.str "Q", by decide +kernel⟩
  have turned := inOrder.fields _ _ page fields q question _ record
  exact absurd turned (by decide +kernel)

end Definition
end Questionnaire
