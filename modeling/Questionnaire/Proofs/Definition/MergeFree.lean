import Questionnaire.Proofs.Definition
import Questionnaire.Proofs.Record
import Questionnaire.Proofs.Yaml.MergeFree

/-!
Merge keys in the definition of a text. A definition comes from a text by one expansion, and it is
free of merge keys, with all fields that merge keys lead to, exactly when nothing that is merged in
has a merge key of its own (`fullyMerged_iff`). A chain of two merges keeps a merge key.
-/
namespace Questionnaire
open Yaml

namespace Definition

/-- No page and no question is named by a merge key, and no mapping in the metadata has one. -/
structure MergeFree (d : Definition) : Prop where
  pages : ∀ p ∈ d.pages, p.name ≠ "<<"
  questions : ∀ p ∈ d.pages, ∀ q ∈ p.questions, q.text ≠ "<<"
  metadata : ∀ p ∈ d.pages, ∀ q ∈ p.questions, q.metadata.MergeFree

/-- Entries without a merge key are those whose texts are not that of it. -/
theorem no_mergeKey_iff {α : Type} {name : α → String} {R : Value × Value → α → Prop}
    (text : ∀ e a, R e a → keyText? e.1 = some (name a)) {es : Mapping} {as : List α}
    (h : List.Forall₂ R es as) :
    Mapping.contains Mapping.mergeKey es = false ↔ ∀ a ∈ as, name a ≠ "<<" := by
  induction h with
  | nil => simp [Mapping.contains]
  | @cons e a es as first _ ih =>
    have key : Mapping.mergeKey.same e.1 = true ↔ name a = "<<" := by
      rw [Mapping.mergeKey, same_str, ← keyText?_eq_mergeKey, text e a first, Option.some.injEq]
    simp only [Mapping.contains, List.any_cons, Bool.or_eq_false_iff, List.forall_mem_cons] at ih ⊢
    rw [ih, ← Bool.not_eq_true, key]

theorem mergeFree_ofValue {w : Value} {d : Definition} (h : ofValue w = .ok d) :
    d.MergeFree ↔ w.MergeFree := by
  obtain ⟨es, rfl, pages⟩ := ofValue_eq_ok.mp h
  rw [Value.mergeFree_map, no_mergeKey_iff (fun _ _ page => page.1) pages]
  constructor
  · intro free
    refine ⟨free.pages, fun e he => ?_⟩
    obtain ⟨p, hp, _, qs, hqs, asked⟩ := exists_of_forall₂ pages he
    rw [hqs, Value.mergeFree_map, no_mergeKey_iff (fun _ _ question => question.1) asked]
    refine ⟨free.questions p hp, fun e he => ?_⟩
    obtain ⟨q, hq, _, metadata⟩ := exists_of_forall₂ asked he
    rw [← metadata]
    exact free.metadata p hp q hq
  · rintro ⟨names, below⟩
    have page : ∀ p ∈ d.pages, ∃ qs : Mapping, (Value.map qs).MergeFree ∧
        List.Forall₂ Question.IsOf qs p.questions := by
      intro p hp
      obtain ⟨e, he, _, qs, hqs, asked⟩ := exists_of_forall₂ pages.flip hp
      exact ⟨qs, hqs ▸ below e he, asked⟩
    refine ⟨names, fun p hp => ?_, fun p hp q hq => ?_⟩
    · obtain ⟨qs, free, asked⟩ := page p hp
      exact (no_mergeKey_iff (fun _ _ question => question.1) asked).mp
        (Value.mergeFree_map.mp free).1
    · obtain ⟨qs, free, asked⟩ := page p hp
      obtain ⟨e, he, _, metadata⟩ := exists_of_forall₂ asked.flip hq
      rw [metadata]
      exact (Value.mergeFree_map.mp free).2 e he

/-- What a definition `d` has when the merge keys of the document `v` have been expanded to their
ends, `w` being the expanded document. -/
structure FullyMerged (v w : Value) (d : Definition) : Prop where
  free : d.MergeFree
  /-- Every mapping has all fields that its merge keys lead to. -/
  fields : ∀ es : Mapping, v.Leads Mapping.merged (.map es) →
    ∃ fs, (Value.map es).expand = .ok (.map fs) ∧ w.Leads id (.map fs) ∧
      ∀ key, es.Reaches key → Mapping.contains key fs
  /-- A question whose merge keys lead to a key is not without one. -/
  keyed : ∀ p ∈ d.pages, ∀ q ∈ p.questions, ∀ es : Mapping, v.Leads Mapping.merged (.map es) →
    (Value.map es).expand = .ok q.metadata → es.Reaches Record.keyField →
      ∀ page, Record.ofQuestion page q ≠ .error (.missingKey page q.text)

theorem fullyMerged_iff {v w : Value} {d : Definition} (hv : v.WellKeyed)
    (expanded : v.expand = .ok w) (defined : ofValue w = .ok d) :
    FullyMerged v w d ↔ v.MergesOnce := by
  constructor
  · intro merged
    exact (mergeFree_iff hv expanded).mp ((mergeFree_ofValue defined).mp merged.free)
  · intro once
    have free := (mergeFree_ofValue defined).mpr ((mergeFree_iff hv expanded).mpr once)
    refine ⟨free, fun es led => expand_reaches hv expanded once led, ?_⟩
    intro p hp q hq es led metadata reached page missing
    obtain ⟨fs, hfs, _, fields⟩ := expand_reaches hv expanded once led
    have present := fields Record.keyField reached
    obtain ⟨gs, hgs, absent⟩ := Record.ofQuestion_eq_missingKey.mp missing
    rw [hfs, hgs, Except.ok.injEq, Value.map.injEq] at metadata
    rw [metadata, Mapping.find?_eq_none.mp absent] at present
    cases present

/-- The merge keys of a text are expanded to their ends if and only if there are no chains of
them. -/
theorem ofText_fullyMerged_iff {text : String} {d : Definition} (accepted : ofText text = .ok d) :
    ∃ v w, Value.ofString text = .ok v ∧ v.expand = .ok w ∧ ofValue w = .ok d ∧
      (FullyMerged v w d ↔ v.MergesOnce) := by
  obtain ⟨v, w, read, expanded, defined⟩ := ofText_eq_ok.mp accepted
  exact ⟨v, w, read, expanded, defined,
    fullyMerged_iff (wellKeyed_ofString read) expanded defined⟩

theorem ofText_fullyMerged_iff_list :
    let text := "P:\n  A: &a \x7bkey: k\x7d\n  B: \x7b<<: [*a, \x7bt: v\x7d]\x7d\n"
    let d : Definition := ⟨[⟨"P", [⟨"A", .map [(.str "key", .str "k")]⟩,
      ⟨"B", .map [(.str "key", .str "k"), (.str "t", .str "v")]⟩]⟩]⟩
    ofText text = .ok d ∧
      ∃ v w, Value.ofString text = .ok v ∧ v.expand = .ok w ∧ ofValue w = .ok d ∧
        (FullyMerged v w d ↔ v.MergesOnce) := by
  intro text d
  have accepted : ofText text = .ok d := eq_ok_of_toOption (by decide +kernel)
  exact ⟨accepted, ofText_fullyMerged_iff accepted⟩

/-- A question that gets its key from a question that gets it from another one. -/
def mergeChain : String :=
  "P:\n  A: &a \x7bkey: k\x7d\n  B: &b \x7b<<: *a\x7d\n  Q: \x7b<<: *b\x7d\n"

theorem mergeChain_kept :
    let keyed : Value := .map [(.str "key", .str "k")]
    let last : Question := ⟨"Q", .map [(Mapping.mergeKey, keyed)]⟩
    let d : Definition := ⟨[⟨"P", [⟨"A", keyed⟩, ⟨"B", keyed⟩, last]⟩]⟩
    ofText mergeChain = .ok d ∧ ¬ d.MergeFree ∧
      Record.ofQuestion "P" last = .error (.missingKey "P" "Q") := by
  intro keyed last d
  refine ⟨eq_ok_of_toOption (by decide +kernel), fun free => ?_, rfl⟩
  have asked : last ∈ [⟨"A", keyed⟩, ⟨"B", keyed⟩, last] := by simp
  have unmerged := free.metadata _ List.mem_cons_self last asked _ (.here _)
  exact absurd unmerged (by decide)

end Definition
end Questionnaire
