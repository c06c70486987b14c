import Questionnaire.Proofs.Yaml.Merging

/-!
When an expansion leaves no merge key behind. Each mapping is expanded once, so a merge key in one
of its sources comes to stand in the mapping itself; the value is free of merge keys exactly when
no mapping that the expansion comes to has such a source (`mergeFree_iff`). Then the sources of the
sources add nothing, and all fields that merge keys lead to are fields of the result.
-/
namespace Questionnaire.Yaml
open Merge

/-- No mapping has a merge key. -/
def Value.MergeFree (v : Value) : Prop :=
  ∀ es : Mapping, v.Leads id (.map es) → Mapping.contains Mapping.mergeKey es = false

/-- Nothing that is merged into a mapping has a merge key of its own. -/
def Value.MergesOnce (v : Value) : Prop :=
  ∀ es : Mapping, v.Leads Mapping.merged (.map es) →
    ∀ s ∈ es.sources, Mapping.contains Mapping.mergeKey s = false

namespace Mapping

/-- The fields of a mapping, of its sources, of their sources and so on. -/
inductive Reaches : Mapping → Value → Prop
  | own {es : Mapping} {e : Value × Value} : e ∈ es → mergeKey.same e.1 = false → Reaches es e.1
  | source {es s : Mapping} {key : Value} : s ∈ es.sources → Reaches s key → Reaches es key

theorem contains_addAbsent_str (s : String) (es more : Mapping) :
    contains (.str s) (addAbsent es more) = (contains (.str s) es || contains (.str s) more) := by
  induction more generalizing es with
  | nil => simp [addAbsent, contains]
  | cons e more ih =>
    have single : contains (.str s) [e] = (Value.str s).same e.1 := Bool.or_false _
    rw [addAbsent_cons, contains_cons]
    by_cases present : contains e.1 es
    · rw [if_pos present, ih]
      cases same : (Value.str s).same e.1 with
      | false => simp
      | true =>
        rw [same_str.mp same] at present
        simp [present]
    · rw [if_neg present, ih, contains_append, single, Bool.or_assoc]

theorem contains_merged {es : Mapping} (distinct : Distinct es) :
    contains mergeKey es.merged ↔ ∃ s ∈ es.sources, contains mergeKey s := by
  have folded : ∀ (ss : List Mapping) (start : Mapping),
      contains mergeKey (ss.foldl addAbsent start) ↔
        contains mergeKey start ∨ ∃ s ∈ ss, contains mergeKey s := by
    intro ss
    induction ss with
    | nil => simp
    | cons s ss ih =>
      intro start
      rw [List.foldl_cons, ih, mergeKey, contains_addAbsent_str]
      simp [or_assoc]
  have removed : ¬ contains mergeKey (swapErase mergeKey es) = true := by
    simp only [contains, List.any_eq_true, not_exists, not_and, mem_swapErase distinct]
    intro e he
    simp [he.2]
  rw [merged, folded]
  exact or_iff_right removed

theorem exists_of_reaches {es : Mapping} {key : Value} (h : Reaches es key)
    (free : contains mergeKey es = false) : ∃ e ∈ es, e.1 = key := by
  cases h with
  | own he _ => exact ⟨_, he, rfl⟩
  | source hs _ =>
    rw [sources, find?_eq_none.mpr free] at hs
    cases hs

/-- Where no source has a merge key all that is reached has been merged. -/
theorem contains_of_reaches {es : Mapping} {key : Value} (hes : (Value.map es).WellKeyed)
    (once : ∀ s ∈ es.sources, contains mergeKey s = false) (h : Reaches es key) :
    contains key es.merged := by
  cases h with
  | own he other =>
    have kept := (mem_swapErase hes.distinct).mpr ⟨he, other⟩
    obtain ⟨added, eq, _⟩ := foldl_addAbsent_eq_append es.sources (swapErase mergeKey es)
    rw [merged, eq]
    exact List.any_eq_true.mpr ⟨_, List.mem_append_left added kept, (hes.key he).same_self⟩
  | @source _ s _ hs hkey =>
    obtain ⟨e, he, rfl⟩ := exists_of_reaches hkey (once s hs)
    have reflexive := ((wellKeyed_source hes hs).key he).same_self
    exact contains_foldl_addAbsent hs he reflexive

theorem contains_becomes {key : Value} {es fs : Mapping} (h : List.Forall₂ Becomes es fs) :
    contains key fs = contains key es := by
  induction h with
  | nil => rfl
  | cons first _ ih =>
    simp only [contains, List.any_cons] at ih ⊢
    rw [first.1, ih]

end Mapping

theorem Value.mergeFree_map {es : Mapping} : (Value.map es).MergeFree ↔
    Mapping.contains Mapping.mergeKey es = false ∧ ∀ e ∈ es, e.2.MergeFree := by
  constructor
  · intro free
    exact ⟨free es (.here _), fun e he fs led => free fs (.field he led)⟩
  · rintro ⟨top, below⟩ fs led
    cases led with
    | here _ => exact top
    | field he led => exact below _ he fs led

theorem mergeFree_iff {v w : Value} (hv : v.WellKeyed) (h : v.expand = .ok w) :
    w.MergeFree ↔ v.MergesOnce := by
  constructor
  · intro free es led s hs
    obtain ⟨y, hes, made, reached⟩ := expand_leads hv h led
    cases expands_of_expand hes made with
    | map become =>
      have unmerged := free _ reached
      rw [Mapping.contains_becomes become] at unmerged
      have none := (Mapping.contains_merged hes.distinct).not.mp (by simp [unmerged])
      simpa using fun present => none ⟨s, hs, present⟩
  · intro once fs led
    obtain ⟨x, reached, hx, made⟩ := leads_expand hv h led
    obtain ⟨es, rfl, become⟩ := eq_map_of_expand hx made
    have none : ¬ ∃ s ∈ es.sources, Mapping.contains Mapping.mergeKey s := by
      rintro ⟨s, hs, present⟩
      rw [once _ reached s hs] at present
      cases present
    rw [Mapping.contains_becomes become]
    simpa using (Mapping.contains_merged hx.distinct).not.mpr none

/-- With one level of merging every mapping of the result has all fields that are reached. -/
theorem expand_reaches {v w : Value} (hv : v.WellKeyed) (h : v.expand = .ok w)
    (once : v.MergesOnce) {es : Mapping} (led : v.Leads Mapping.merged (.map es)) :
    ∃ fs, (Value.map es).expand = .ok (.map fs) ∧ w.Leads id (.map fs) ∧
      ∀ key, es.Reaches key → Mapping.contains key fs := by
  obtain ⟨y, hes, made, reached⟩ := expand_leads hv h led
  cases expands_of_expand hes made with
  | map become =>
    refine ⟨_, made, reached, fun key hkey => ?_⟩
    rw [Mapping.contains_becomes become]
    exact Mapping.contains_of_reaches hes (once es led) hkey

end Questionnaire.Yaml
