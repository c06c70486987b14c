import Questionnaire.Proofs.Yaml.Merging

/-!
Which values can be expanded. What stands at a merge key has to be a mapping or a list of mappings;
one merge key with anything else, wherever the expansion comes to it, is enough to refuse the whole
value, and there is no other reason to refuse it (`expand_ok_iff`). A source whose entries are not
taken is not looked into.
-/
namespace Questionnaire.Yaml
open Merge

namespace Value

def IsMapping (v : Value) : Prop := ∃ es : Mapping, v = .map es

/-- A mapping or a list of mappings. -/
def IsSource (v : Value) : Prop :=
  v.IsMapping ∨ ∃ items, v = .seq items ∧ ∀ x ∈ items, x.IsMapping

/-- Wherever the expansion comes to a merge key, there are mappings at it. -/
def Mergeable (v : Value) : Prop :=
  ∀ es : Mapping, v.Leads Mapping.merged (.map es) →
    ∀ x, Mapping.find? Mapping.mergeKey es = some x → x.IsSource

end Value

theorem mergeItems_ok_iff {items : List Value} :
    (∃ ss, mergeItems items = .ok ss) ↔ ∀ x ∈ items, x.IsMapping := by
  induction items with
  | nil =>
    constructor
    · intro _ x hx
      cases hx
    · intro _
      exact ⟨[], rfl⟩
  | cons x xs ih =>
    rw [List.forall_mem_cons, ← ih]
    constructor
    · rintro ⟨ss, h⟩
      cases x with
      | map es =>
        rw [mergeItems] at h
        obtain ⟨more, hxs, _⟩ := bind_eq_ok.mp h
        exact ⟨⟨es, rfl⟩, more, hxs⟩
      | _ => cases h
    · rintro ⟨⟨es, rfl⟩, more, hxs⟩
      refine ⟨expandEntries es :: more, ?_⟩
      rw [mergeItems, hxs]
      rfl

theorem mergeSources_ok_iff {v : Value} : (∃ ss, mergeSources v = .ok ss) ↔ v.IsSource := by
  constructor
  · rintro ⟨ss, h⟩
    cases v with
    | map es => exact .inl ⟨es, rfl⟩
    | seq items => exact .inr ⟨items, rfl, mergeItems_ok_iff.mp ⟨ss, h⟩⟩
    | _ => cases h
  · rintro (⟨es, rfl⟩ | ⟨items, rfl, mappings⟩)
    · exact ⟨_, rfl⟩
    · exact mergeItems_ok_iff.mpr mappings

theorem collect_ok_iff {es : Mapping} :
    (∃ fs, collect (es.map (Mapping.rekeep fun e => e.2.expand)) = .ok fs) ↔
      ∀ e ∈ es, ∃ w, e.2.expand = .ok w := by
  constructor
  · rintro ⟨fs, h⟩ e he
    obtain ⟨f, _, _, expanded⟩ := exists_of_forall₂ (collect_ok h) he
    exact ⟨f.2, expanded⟩
  · intro all
    induction es with
    | nil => exact ⟨[], rfl⟩
    | cons e es ih =>
      obtain ⟨⟨w, first⟩, others⟩ := List.forall_mem_cons.mp all
      obtain ⟨fs, rest⟩ := ih others
      refine ⟨(e.1, w) :: fs, ?_⟩
      rw [List.map_cons, Mapping.rekeep, collect, rest, first]
      rfl

theorem collectItems_ok_iff {items : List Value} :
    (∃ ws, collectItems (items.map Value.expand) = .ok ws) ↔
      ∀ x ∈ items, ∃ w, x.expand = .ok w := by
  constructor
  · rintro ⟨ws, h⟩ x hx
    obtain ⟨w, _, expanded⟩ := exists_of_forall₂ (collectItems_ok h) hx
    exact ⟨w, expanded⟩
  · intro all
    induction items with
    | nil => exact ⟨[], rfl⟩
    | cons x xs ih =>
      obtain ⟨⟨w, first⟩, others⟩ := List.forall_mem_cons.mp all
      obtain ⟨ws, rest⟩ := ih others
      refine ⟨w :: ws, ?_⟩
      rw [List.map_cons, collectItems, rest, first]
      rfl

/-- What is merged into a mapping is part of it. -/
theorem sizeOf_merged {es : Mapping} (distinct : Mapping.Distinct es) {e : Value × Value}
    (he : e ∈ es.merged) : sizeOf e.2 < sizeOf (Value.map es) := by
  have entry : ∀ {fs : Mapping} {f : Value × Value}, f ∈ fs →
      sizeOf f.2 < sizeOf (Value.map fs) := by
    intro fs f hf
    have inside := List.sizeOf_lt_of_mem hf
    obtain ⟨k, v⟩ := f
    simp only [Prod.mk.sizeOf_spec, Value.map.sizeOf_spec] at inside ⊢
    omega
  rcases Mapping.mem_merged distinct he with own | ⟨s, hs, hes⟩
  · exact entry own
  · obtain ⟨f, hf, source⟩ := Mapping.mem_sources hs
    have field := entry hf
    have inner := entry hes
    rcases source with eq | ⟨items, eq, item⟩
    · rw [eq] at field
      omega
    · have inside := List.sizeOf_lt_of_mem item
      rw [eq, Value.seq.sizeOf_spec] at field
      omega

theorem mergeable_of_expand {v w : Value} (hv : v.WellKeyed) (h : v.expand = .ok w) :
    v.Mergeable := by
  intro es led x found
  obtain ⟨y, _, expanded, _⟩ := expand_leads hv h led
  exact mergeSources_ok_iff.mp (mergeSources_of_expand expanded found)

theorem expand_of_mergeable {v : Value} (hv : v.WellKeyed) (mergeable : v.Mergeable) :
    ∃ w, v.expand = .ok w := by
  cases hv with
  | null => exact ⟨_, rfl⟩
  | bool b => exact ⟨_, rfl⟩
  | num n => exact ⟨_, rfl⟩
  | str s => exact ⟨_, rfl⟩
  | @seq items each =>
    have all : ∀ x ∈ items, ∃ w, x.expand = .ok w := by
      intro x hx
      exact expand_of_mergeable (each x hx) fun es led => mergeable es (.item hx led)
    obtain ⟨ws, done⟩ := collectItems_ok_iff.mpr all
    refine ⟨.seq ws, ?_⟩
    rw [Value.expand, expandItems_eq, done]
    rfl
  | @map es distinct keys values =>
    have hes : (Value.map es).WellKeyed := .map distinct keys values
    have all : ∀ e ∈ es.merged, ∃ w, e.2.expand = .ok w := by
      intro e he
      have smaller := sizeOf_merged distinct he
      exact expand_of_mergeable (wellKeyed_merged hes he).2 fun fs led =>
        mergeable fs (.field he led)
    obtain ⟨fs, done⟩ := collect_ok_iff.mpr all
    refine ⟨.map fs, ?_⟩
    rw [expand_map_eq distinct fun x found => mergeSources_ok_iff.mpr
      (mergeable es (.here _) x found), done]
    rfl
  | @tagged tag x inner =>
    obtain ⟨w, done⟩ := expand_of_mergeable inner fun es led => mergeable es (.content led)
    refine ⟨.tagged tag w, ?_⟩
    rw [Value.expand, done]
    rfl
termination_by sizeOf v

/-- A value is expanded if and only if there are mappings at each merge key that is come to. -/
theorem expand_ok_iff {v : Value} (hv : v.WellKeyed) : (∃ w, v.expand = .ok w) ↔ v.Mergeable := by
  constructor
  · rintro ⟨w, h⟩
    exact mergeable_of_expand hv h
  · exact expand_of_mergeable hv

namespace Mapping

theorem merged_absent {es : Mapping} (absent : contains mergeKey es = false) : es.merged = es := by
  rw [merged, sources, find?_eq_none.mpr absent, swapErase_absent absent]
  rfl

end Mapping

/-- A mapping without a merge key can be expanded if what stands at its keys can. -/
theorem Value.mergeable_map {es : Mapping}
    (absent : Mapping.contains Mapping.mergeKey es = false) :
    (Value.map es).Mergeable ↔ ∀ e ∈ es, e.2.Mergeable := by
  constructor
  · intro mergeable e he fs led
    refine mergeable fs (.field ?_ led)
    rw [Mapping.merged_absent absent]
    exact he
  · intro each fs led x found
    cases led with
    | here _ =>
      rw [Mapping.find?_eq_none.mpr absent] at found
      cases found
    | field he led =>
      rw [Mapping.merged_absent absent] at he
      exact each _ he fs led x found

end Questionnaire.Yaml
