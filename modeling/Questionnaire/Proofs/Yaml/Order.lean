import Mathlib.Data.List.Nodup
import Mathlib.Data.List.TakeWhile
import Questionnaire.Proofs.Yaml.MergeFree
import Questionnaire.Proofs.Yaml.Sameness

/-!
The order of the entries when merge keys are expanded. A merge key is taken out by putting the last
entry in its place, so the entries behind it are turned round by one; the entries that a mapping
has itself stay in order exactly when there is nothing to turn (`ownInOrder_iff`).
-/
namespace Questionnaire.Yaml

section Lists
variable {γ : Type} {skip : γ → Bool}

/-- The last one is left out or is the only one that is not. -/
def LastAlone (skip : γ → Bool) (l : List γ) : Prop :=
  ∀ last, l.getLast? = some last → skip last ∨ ∀ x ∈ l.dropLast, skip x

theorem lastAlone_concat {l : List γ} {last : γ} :
    LastAlone skip (l ++ [last]) ↔ skip last ∨ ∀ x ∈ l, skip x := by
  simp [LastAlone]

theorem lastAlone_iff_filter {l : List γ} (nodup : l.Nodup) :
    LastAlone skip l ↔ (lastFirst l).filter (!skip ·) = l.filter (!skip ·) := by
  rcases List.eq_nil_or_concat l with rfl | ⟨rest, last, rfl⟩
  · simp [LastAlone, lastFirst]
  · rw [List.concat_eq_append] at nodup ⊢
    rw [lastAlone_concat, lastFirst_concat, List.filter_append]
    have apart : last ∉ rest := fun h =>
      (List.nodup_append.mp nodup).2.2 last h last List.mem_cons_self rfl
    by_cases hlast : skip last
    · simp [hlast]
    · have kept : rest.filter (!skip ·) = [] ↔ ∀ x ∈ rest, skip x := by
        simp [List.filter_eq_nil_iff]
      rw [or_iff_right hlast, ← kept]
      cases hrest : rest.filter (!skip ·) with
      | nil => simp [hlast, hrest]
      | cons x xs =>
        have hx : x ∈ rest := List.mem_of_mem_filter (hrest ▸ List.mem_cons_self)
        have hne : last ≠ x := fun h => apart (h ▸ hx)
        simp [hlast, hrest, hne]

/-- Turned round by one and with new elements behind it, a list keeps its order only if nothing was
turned. -/
theorem sublist_lastFirst_iff {before behind added : List γ} (nodup : behind.Nodup)
    (fresh : ∀ x ∈ behind, x ∉ added) :
    ((before ++ behind).filter (!skip ·)).Sublist
        ((before ++ lastFirst behind ++ added).filter (!skip ·)) ↔
      LastAlone skip behind := by
  rw [lastAlone_iff_filter nodup, List.filter_append, List.filter_append, List.filter_append,
    List.append_assoc, List.append_sublist_append_left]
  constructor
  · intro h
    obtain ⟨front, rest, split, hfront, hrest⟩ := List.sublist_append_iff.mp h
    have none : rest = [] := by
      refine List.eq_nil_iff_forall_not_mem.mpr fun x hx => ?_
      have mem : x ∈ behind.filter (!skip ·) := split ▸ List.mem_append_right front hx
      exact fresh x (List.mem_of_mem_filter mem) (List.mem_of_mem_filter (hrest.subset hx))
    rw [none, List.append_nil] at split
    rw [← split] at hfront
    have length := ((lastFirst_perm behind).filter (!skip ·)).length_eq
    exact (hfront.eq_of_length length.symm).symm
  · intro same
    rw [same]
    exact List.sublist_append_left _ _

theorem lastAlone_none {l : List γ} : LastAlone (fun _ => false) l ↔ l.length ≤ 1 := by
  rcases List.eq_nil_or_concat l with rfl | ⟨rest, last, rfl⟩
  · simp [LastAlone]
  · rw [List.concat_eq_append, lastAlone_concat]
    cases rest with
    | nil => simp
    | cons x xs => simpa using ⟨x, fun hne => absurd rfl hne⟩

end Lists

namespace Mapping

/-- The entries that stand in a mapping itself: all but the merge key. -/
def own (es : Mapping) : Mapping := erase mergeKey es

/-- The entries behind the merge key. -/
def behind (es : Mapping) : Mapping := (es.dropWhile fun e => !mergeKey.same e.1).tail

theorem own_split {es : Mapping} (distinct : Distinct es) : ∃ before,
    own es = before ++ behind es ∧ swapErase mergeKey es = before ++ lastFirst (behind es) := by
  rcases split_mergeKey distinct with absent | ⟨before, v, rest, rfl, hbefore, hrest⟩
  · have others : ∀ e ∈ es, mergeKey.same e.1 = false := by
      simpa [contains] using absent
    have none : behind es = [] := by
      rw [behind, List.dropWhile_eq_nil_iff.mpr fun e he => by simp [others e he]]
      rfl
    refine ⟨es, ?_, ?_⟩
    · rw [none, List.append_nil, own, erase, List.eraseP_of_forall_not]
      simpa using others
    · rw [none, swapErase_absent absent]
      simp [lastFirst]
  · have others : ∀ e ∈ before, mergeKey.same e.1 = false := by
      simpa [contains] using hbefore
    have found : behind (before ++ (mergeKey, v) :: rest) = rest := by
      have merge : mergeKey.same mergeKey = true := same_str.mpr rfl
      rw [behind, List.dropWhile_append_of_pos fun e he => by simp [others e he]]
      simp [merge]
    refine ⟨before, ?_, ?_⟩
    · rw [found]
      exact erase_append (e := (mergeKey, v)) others (same_str.mpr rfl)
    · rw [found]
      exact swapErase_split hbefore

theorem merged_split {es : Mapping} (h : (Value.map es).WellKeyed) : ∃ before added : Mapping,
    own es = before ++ behind es ∧ es.merged = before ++ lastFirst (behind es) ++ added ∧
      ∀ e ∈ added, e.1 ∉ (own es).map Prod.fst := by
  obtain ⟨before, hown, hswap⟩ := own_split h.distinct
  obtain ⟨added, eq, fresh⟩ := foldl_addAbsent_eq_append es.sources (swapErase mergeKey es)
  refine ⟨before, added, hown, by rw [merged, eq, hswap], fun e he present => ?_⟩
  obtain ⟨f, hf, same⟩ := List.mem_map.mp present
  have reflexive : f.1.same f.1 := (h.key (List.mem_of_mem_eraseP hf)).same_self
  have there : f ∈ swapErase mergeKey es := by
    rw [hown] at hf
    rw [hswap]
    exact ((lastFirst_perm _).append_left before).mem_iff.mpr hf
  have contained : contains f.1 (swapErase mergeKey es) :=
    List.any_eq_true.mpr ⟨f, there, reflexive⟩
  rw [same, (fresh e he).2] at contained
  cases contained

theorem own_subset_merged {es : Mapping} (h : (Value.map es).WellKeyed) : own es ⊆ es.merged := by
  obtain ⟨before, added, hown, hmerged, _⟩ := merged_split h
  rw [hown, hmerged]
  intro e he
  refine List.mem_append_left added ?_
  exact ((lastFirst_perm _).append_left before).mem_iff.mpr he

theorem nodup_own {es : Mapping} (h : (Value.map es).WellKeyed) :
    ((own es).map Prod.fst).Nodup :=
  h.nodup.sublist (List.eraseP_sublist.map Prod.fst)

theorem nodup_merged {es : Mapping} (h : (Value.map es).WellKeyed) :
    (es.merged.map Prod.fst).Nodup := by
  have keys : ∀ e ∈ es.merged, e.1.WellKeyed := fun e he => (wellKeyed_merged h he).1
  have values : ∀ e ∈ es.merged, e.2.WellKeyed := fun e he => (wellKeyed_merged h he).2
  exact (Value.WellKeyed.map (distinct_merged h) keys values).nodup

/-- The keys of the own entries stay in their order, some keys and what comes behind the entries
left aside. -/
theorem ownInOrder_iff {es : Mapping} (h : (Value.map es).WellKeyed) (skip : Value → Bool)
    {extra : List Value} (hextra : ∀ k ∈ extra, k ∉ (own es).map Prod.fst) :
    (((own es).map Prod.fst).filter (!skip ·)).Sublist
        ((es.merged.map Prod.fst ++ extra).filter (!skip ·)) ↔
      LastAlone skip ((behind es).map Prod.fst) := by
  obtain ⟨before, added, hown, hmerged, fresh⟩ := merged_split h
  have nodup := nodup_own h
  rw [hown, List.map_append] at nodup
  rw [hmerged, hown, List.map_append, List.map_append, List.map_append, map_lastFirst,
    List.append_assoc]
  refine sublist_lastFirst_iff (List.nodup_append.mp nodup).2.1 fun x hx new => ?_
  have there : x ∈ (own es).map Prod.fst := by
    rw [hown, List.map_append]
    exact List.mem_append_right _ hx
  rcases List.mem_append.mp new with new | new
  · obtain ⟨e, he, rfl⟩ := List.mem_map.mp new
    exact fresh e he there
  · exact hextra x new there

end Mapping
end Questionnaire.Yaml
