import Mathlib.Data.List.Forall2
import Questionnaire.Proofs.Except
import Questionnaire.Proofs.Yaml.Reading
import Questionnaire.Yaml.Merge

/-!
What the expansion of merge keys makes of a value, one layer at a time. The entries of a mapping
become its own entries and then those of its sources that have new keys (`Mapping.merged`); what
stands at them is expanded in turn, but the sources themselves are not. The expanded value is thus
walked through as the value is with `merged` for its mappings (`expand_leads`, `leads_expand`).
-/
namespace Questionnaire.Yaml
open Merge

section Pointwise

theorem exists_of_forall₂ {α β : Type} {R : α → β → Prop} {as : List α} {bs : List β}
    (h : List.Forall₂ R as bs) {a : α} (ha : a ∈ as) : ∃ b ∈ bs, R a b := by
  induction h with
  | nil => cases ha
  | cons first _ ih =>
    rcases List.mem_cons.mp ha with rfl | ha
    · exact ⟨_, List.mem_cons_self, first⟩
    · obtain ⟨b, hb, related⟩ := ih ha
      exact ⟨b, List.mem_cons_of_mem _ hb, related⟩

theorem forall₂_imp_mem {α β : Type} {R S : α → β → Prop} {as : List α} {bs : List β}
    (h : List.Forall₂ R as bs) (imp : ∀ a ∈ as, ∀ b, R a b → S a b) : List.Forall₂ S as bs := by
  induction h with
  | nil => exact .nil
  | cons first _ ih =>
    exact .cons (imp _ List.mem_cons_self _ first)
      (ih fun a ha => imp a (List.mem_cons_of_mem _ ha))

theorem forall₂_comp {α β γ : Type} {R : α → β → Prop} {S : β → γ → Prop} {T : α → γ → Prop}
    {as : List α} {bs : List β} {cs : List γ} (h : List.Forall₂ R as bs)
    (h' : List.Forall₂ S bs cs) (comp : ∀ a ∈ as, ∀ b c, R a b → S b c → T a c) :
    List.Forall₂ T as cs := by
  induction h generalizing cs with
  | nil => cases h'; exact .nil
  | @cons a b as bs first _ ih =>
    cases h' with
    | cons second rest =>
      exact .cons (comp a List.mem_cons_self _ _ first second)
        (ih rest fun a ha => comp a (List.mem_cons_of_mem _ ha))

end Pointwise

/-- The mappings that a value under a merge key stands for. -/
def Value.sources : Value → List Mapping
  | .map es => [es]
  | .seq items => items.filterMap fun item => match item with
    | .map es => some es
    | _ => none
  | _ => []

namespace Mapping

def mergeKey : Value := .str "<<"

/-- The mappings that are merged into a mapping. -/
def sources (es : Mapping) : List Mapping := ((find? mergeKey es).map Value.sources).getD []

/-- The entries of a mapping with its merge key expanded and everything else left. -/
def merged (es : Mapping) : Mapping := es.sources.foldl addAbsent (swapErase mergeKey es)

/-- A mapping has no merge key or one. -/
theorem split_mergeKey {es : Mapping} (distinct : Distinct es) :
    contains mergeKey es = false ∨ ∃ before v behind, es = before ++ (mergeKey, v) :: behind ∧
      contains mergeKey before = false ∧ contains mergeKey behind = false := by
  by_cases present : contains mergeKey es
  · right
    obtain ⟨e, he, hkey⟩ := List.any_eq_true.mp present
    obtain ⟨k, v⟩ := e
    obtain rfl : k = mergeKey := same_str.mp hkey
    obtain ⟨before, behind, rfl⟩ := List.append_of_mem he
    obtain ⟨_, rest, apart⟩ := List.pairwise_append.mp distinct
    refine ⟨before, v, behind, rfl, List.any_eq_false.mpr ?_, List.any_eq_false.mpr ?_⟩
    · intro x hx same
      have hne := apart x hx _ List.mem_cons_self
      rw [same] at hne
      cases hne
    · intro x hx same
      have hne := (List.pairwise_cons.mp rest).1 x hx
      rw [same_str.mp same] at hne
      cases hne
  · exact Or.inl (by simpa using present)

theorem swapErase_split {before behind : Mapping} {v : Value}
    (others : contains mergeKey before = false) :
    swapErase mergeKey (before ++ (mergeKey, v) :: behind) = before ++ lastFirst behind :=
  swapErase_append (e := (mergeKey, v))
    (fun x hx => by simpa using List.any_eq_false.mp others x hx) rfl

theorem filter_mergeKey_absent {es : Mapping} (absent : contains mergeKey es = false) :
    es.filter (fun e => !mergeKey.same e.1) = es := by
  refine List.filter_eq_self.mpr fun e he => ?_
  simpa using List.any_eq_false.mp absent e he

/-- Up to their order the own entries are those with another key than the merge key. -/
theorem swapErase_perm {es : Mapping} (distinct : Distinct es) :
    (swapErase mergeKey es).Perm (es.filter fun e => !mergeKey.same e.1) := by
  rcases split_mergeKey distinct with absent | ⟨before, v, behind, rfl, hbefore, hbehind⟩
  · rw [swapErase_absent absent, filter_mergeKey_absent absent]
  · have merge : ¬ (!mergeKey.same (mergeKey, v).1) = true := by simp [mergeKey, same_str]
    rw [swapErase_split hbefore, List.filter_append, filter_mergeKey_absent hbefore,
      List.filter_cons, if_neg merge, filter_mergeKey_absent hbehind]
    exact (lastFirst_perm behind).append_left before

theorem mem_swapErase {es : Mapping} (distinct : Distinct es) {e : Value × Value} :
    e ∈ swapErase mergeKey es ↔ e ∈ es ∧ mergeKey.same e.1 = false := by
  rw [(swapErase_perm distinct).mem_iff, List.mem_filter, Bool.not_eq_true']

/-- An entry after merging is one of the mapping or of a source. -/
theorem mem_merged {es : Mapping} (distinct : Distinct es) {e : Value × Value}
    (he : e ∈ es.merged) : e ∈ es ∨ ∃ s ∈ es.sources, e ∈ s := by
  obtain ⟨added, eq, fresh⟩ := foldl_addAbsent_eq_append es.sources (swapErase mergeKey es)
  rw [merged, eq] at he
  rcases List.mem_append.mp he with own | new
  · exact Or.inl ((mem_swapErase distinct).mp own).1
  · exact Or.inr (fresh e new).1

/-- A source is what stands at the merge key, or an item of that. -/
theorem mem_sources {es s : Mapping} (hs : s ∈ es.sources) :
    ∃ e ∈ es, e.2 = .map s ∨ ∃ items, e.2 = .seq items ∧ .map s ∈ items := by
  rw [sources, find?, Option.map_map] at hs
  cases hfind : List.find? (fun e => mergeKey.same e.1) es with
  | none => rw [hfind] at hs; cases hs
  | some e =>
    obtain ⟨k, v⟩ := e
    rw [hfind] at hs
    change s ∈ v.sources at hs
    refine ⟨(k, v), List.mem_of_find?_eq_some hfind, ?_⟩
    cases v with
    | map fs =>
      obtain rfl := List.mem_singleton.mp hs
      exact Or.inl rfl
    | seq items =>
      obtain ⟨item, hitem, his⟩ := List.mem_filterMap.mp hs
      cases item with
      | map fs => cases his; exact Or.inr ⟨items, rfl, hitem⟩
      | _ => cases his
    | _ => cases hs

theorem foldl_addAbsent_map {α β : Type} (h : Value × α → β) (es : List (Value × α))
    (ss : List (List (Value × α))) :
    (ss.map (List.map (rekeep h))).foldl addAbsent (es.map (rekeep h)) =
      (ss.foldl addAbsent es).map (rekeep h) := by
  induction ss generalizing es with
  | nil => rfl
  | cons s ss ih => rw [List.map_cons, List.foldl_cons, addAbsent_map, ih, List.foldl_cons]

end Mapping

section Expansion

theorem expandItems_eq (items : List Value) : expandItems items = items.map Value.expand := by
  induction items with
  | nil => rfl
  | cons x xs ih => rw [expandItems, ih, List.map_cons]

theorem expandEntries_eq (es : Mapping) :
    expandEntries es = es.map (Mapping.rekeep fun e => e.2.expand) := by
  induction es with
  | nil => rfl
  | cons e es ih => rw [expandEntries, ih]; rfl

theorem isMergeKey_eq (k : Value) : isMergeKey k = Mapping.mergeKey.same k := by
  rw [Bool.eq_iff_iff, isMergeKey, str_same, Mapping.mergeKey, same_str]

theorem expandOwn_eq (es : Mapping) :
    expandOwn es = es.map (Mapping.rekeep fun e =>
      if Mapping.mergeKey.same e.1 then .ok .null else e.2.expand) := by
  induction es with
  | nil => rfl
  | cons e es ih => rw [expandOwn, ih, isMergeKey_eq]; rfl

theorem mergeSources?_eq (es : Mapping) :
    mergeSources? es = (Mapping.find? Mapping.mergeKey es).map mergeSources := by
  induction es with
  | nil => rfl
  | cons e es ih =>
    rw [mergeSources?, isMergeKey_eq, ih, Mapping.find?, Mapping.find?, List.find?_cons]
    cases Mapping.mergeKey.same e.1 <;> rfl

theorem mergeItems_ok {items : List Value} {ss : List (List (Value × Expanded))}
    (h : mergeItems items = .ok ss) : ss = (Value.seq items).sources.map expandEntries := by
  induction items generalizing ss with
  | nil => cases h; rfl
  | cons x xs ih =>
    cases x with
    | map es =>
      rw [mergeItems] at h
      obtain ⟨more, hxs, h⟩ := bind_eq_ok.mp h
      cases h
      rw [ih hxs]
      rfl
    | _ => cases h

theorem mergeSources_ok {v : Value} {ss : List (List (Value × Expanded))}
    (h : mergeSources v = .ok ss) : ss = v.sources.map expandEntries := by
  cases v with
  | map es => cases h; rfl
  | seq items => exact mergeItems_ok h
  | _ => cases h

/-- An entry and what the expansion makes of it. -/
def Becomes (e f : Value × Value) : Prop := f.1 = e.1 ∧ e.2.expand = .ok f.2

theorem becomes_keys {es fs : Mapping} (h : List.Forall₂ Becomes es fs) :
    fs.map Prod.fst = es.map Prod.fst := by
  induction h with
  | nil => rfl
  | cons first _ ih => rw [List.map_cons, List.map_cons, ih, first.1]

theorem collect_ok {es : Mapping} {fs : Mapping}
    (h : collect (es.map (Mapping.rekeep fun e => e.2.expand)) = .ok fs) :
    List.Forall₂ Becomes es fs := by
  induction es generalizing fs with
  | nil => cases h; exact .nil
  | cons e es ih =>
    rw [List.map_cons, Mapping.rekeep, collect] at h
    obtain ⟨rest, hes, h⟩ := bind_eq_ok.mp h
    obtain ⟨v, he, h⟩ := bind_eq_ok.mp h
    cases h
    exact .cons ⟨rfl, he⟩ (ih hes)

theorem collectItems_ok {items ws : List Value}
    (h : collectItems (items.map Value.expand) = .ok ws) :
    List.Forall₂ (fun x w => x.expand = .ok w) items ws := by
  induction items generalizing ws with
  | nil => cases h; exact .nil
  | cons x xs ih =>
    rw [List.map_cons, collectItems] at h
    obtain ⟨rest, hxs, h⟩ := bind_eq_ok.mp h
    obtain ⟨w, hx, h⟩ := bind_eq_ok.mp h
    cases h
    exact .cons hx (ih hxs)

theorem swapErase_expandOwn {es : Mapping} (distinct : Mapping.Distinct es) :
    Mapping.swapErase Mapping.mergeKey (expandOwn es) =
      (Mapping.swapErase Mapping.mergeKey es).map (Mapping.rekeep fun e => e.2.expand) := by
  rw [expandOwn_eq, Mapping.swapErase_map]
  refine List.map_congr_left fun e he => ?_
  have other := ((Mapping.mem_swapErase distinct).mp he).2
  rw [Mapping.rekeep, Mapping.rekeep, other]
  rfl

/-- A mapping whose merge key can be expanded is expanded entry by entry, with merged entries. -/
theorem expand_map_eq {es : Mapping} (distinct : Mapping.Distinct es)
    (mergeable : ∀ v, Mapping.find? Mapping.mergeKey es = some v → ∃ ss, mergeSources v = .ok ss) :
    (Value.map es).expand =
      (collect (es.merged.map (Mapping.rekeep fun e => e.2.expand))).map .map := by
  have own := swapErase_expandOwn distinct
  rw [Value.expand, mergeSources?_eq, Mapping.merged, Mapping.sources]
  cases hfind : Mapping.find? Mapping.mergeKey es with
  | none =>
    have absent : Mapping.contains Mapping.mergeKey (expandOwn es) = false := by
      rw [expandOwn_eq, Mapping.contains_map]
      exact Mapping.find?_eq_none.mp hfind
    rw [Mapping.swapErase_absent absent] at own
    rw [own]
    rfl
  | some v =>
    obtain ⟨ss, hs⟩ := mergeable v hfind
    have entries : expandEntries = List.map (Mapping.rekeep fun e => e.2.expand) :=
      funext expandEntries_eq
    have merged := Mapping.foldl_addAbsent_map (fun e : Value × Value => e.2.expand)
      (Mapping.swapErase Mapping.mergeKey es) v.sources
    rw [← own, ← entries, ← mergeSources_ok hs, expandEntries_eq] at merged
    simp only [Option.map_some, hs]
    change (collect (ss.foldl Mapping.addAbsent
      (Mapping.swapErase Mapping.mergeKey (expandOwn es)))).map _ = _
    rw [merged]
    rfl

theorem mergeSources_of_expand {es : Mapping} {w v : Value} (h : (Value.map es).expand = .ok w)
    (found : Mapping.find? Mapping.mergeKey es = some v) : ∃ ss, mergeSources v = .ok ss := by
  rw [Value.expand, mergeSources?_eq] at h
  simp only [found, Option.map_some] at h
  obtain ⟨ss, hs, _⟩ := bind_eq_ok.mp h
  exact ⟨ss, hs⟩

theorem expand_map_ok {es : Mapping} (distinct : Mapping.Distinct es) {w : Value}
    (h : (Value.map es).expand = .ok w) :
    ∃ fs, w = .map fs ∧ List.Forall₂ Becomes es.merged fs := by
  rw [expand_map_eq distinct fun v => mergeSources_of_expand h] at h
  cases hc : collect (es.merged.map (Mapping.rekeep fun e => e.2.expand)) with
  | error e =>
    rw [hc] at h
    cases h
  | ok fs =>
    rw [hc] at h
    cases h
    exact ⟨fs, rfl, collect_ok hc⟩

/-- One layer of an expansion. -/
inductive Expands : Value → Value → Prop
  | null : Expands .null .null
  | bool (b : Bool) : Expands (.bool b) (.bool b)
  | num (n : Number) : Expands (.num n) (.num n)
  | str (s : String) : Expands (.str s) (.str s)
  | seq {items ws : List Value} : List.Forall₂ (fun x w => x.expand = .ok w) items ws →
      Expands (.seq items) (.seq ws)
  | map {es fs : Mapping} : List.Forall₂ Becomes es.merged fs → Expands (.map es) (.map fs)
  | tagged {tag : Tag} {v w : Value} : v.expand = .ok w → Expands (.tagged tag v) (.tagged tag w)

theorem expands_of_expand {v w : Value} (hv : v.WellKeyed) (h : v.expand = .ok w) :
    Expands v w := by
  cases hv with
  | null => cases h; exact .null
  | bool b => cases h; exact .bool b
  | num n => cases h; exact .num n
  | str s => cases h; exact .str s
  | @seq items _ =>
    rw [Value.expand, expandItems_eq] at h
    obtain ⟨ws, hc, h⟩ := bind_eq_ok.mp h
    cases h
    exact .seq (collectItems_ok hc)
  | map distinct _ _ =>
    obtain ⟨fs, rfl, become⟩ := expand_map_ok distinct h
    exact .map become
  | @tagged tag x _ =>
    rw [Value.expand] at h
    obtain ⟨y, hx, h⟩ := bind_eq_ok.mp h
    cases h
    exact .tagged hx

/-- Only a mapping is expanded to a mapping. -/
theorem eq_map_of_expand {v : Value} {fs : Mapping} (hv : v.WellKeyed)
    (h : v.expand = .ok (.map fs)) :
    ∃ es : Mapping, v = .map es ∧ List.Forall₂ Becomes es.merged fs := by
  generalize hw : Value.map fs = w at h
  cases expands_of_expand hv h with
  | map become =>
    cases hw
    exact ⟨_, rfl, become⟩
  | _ => cases hw

end Expansion

section Walk

theorem wellKeyed_source {es s : Mapping} (h : (Value.map es).WellKeyed) (hs : s ∈ es.sources) :
    (Value.map s).WellKeyed := by
  obtain ⟨e, he, source⟩ := Mapping.mem_sources hs
  have value := h.value he
  rcases source with eq | ⟨items, eq, item⟩
  · exact eq ▸ value
  · rw [eq] at value
    cases value with
    | seq each => exact each _ item

theorem wellKeyed_merged {es : Mapping} (h : (Value.map es).WellKeyed) {e : Value × Value}
    (he : e ∈ es.merged) : e.1.WellKeyed ∧ e.2.WellKeyed := by
  rcases Mapping.mem_merged h.distinct he with own | ⟨s, hs, hes⟩
  · exact ⟨h.key own, h.value own⟩
  · have source := wellKeyed_source h hs
    exact ⟨source.key hes, source.value hes⟩

/-- What is found in a value below its items, fields and tags, with given fields for a mapping. -/
inductive Value.Leads (fields : Mapping → Mapping) : Value → Value → Prop
  | here (v : Value) : Leads fields v v
  | item {items : List Value} {x y : Value} : x ∈ items → Leads fields x y →
      Leads fields (.seq items) y
  | field {es : Mapping} {e : Value × Value} {y : Value} : e ∈ fields es → Leads fields e.2 y →
      Leads fields (.map es) y
  | content {tag : Tag} {x y : Value} : Leads fields x y → Leads fields (.tagged tag x) y

theorem expand_leads {v w x : Value} (hv : v.WellKeyed) (h : v.expand = .ok w)
    (led : v.Leads Mapping.merged x) :
    ∃ y, x.WellKeyed ∧ x.expand = .ok y ∧ w.Leads id y := by
  induction led generalizing w with
  | here v => exact ⟨w, hv, h, .here w⟩
  | item hx _ ih =>
    cases expands_of_expand hv h with
    | seq each =>
      obtain ⟨w', hw', expanded⟩ := exists_of_forall₂ each hx
      cases hv with
      | seq items =>
        obtain ⟨y, hy, made, led⟩ := ih (items _ hx) expanded
        exact ⟨y, hy, made, .item hw' led⟩
  | field he _ ih =>
    cases expands_of_expand hv h with
    | map each =>
      obtain ⟨f, hf, _, expanded⟩ := exists_of_forall₂ each he
      obtain ⟨y, hy, made, led⟩ := ih (wellKeyed_merged hv he).2 expanded
      exact ⟨y, hy, made, .field hf led⟩
  | content _ ih =>
    cases expands_of_expand hv h with
    | tagged expanded =>
      cases hv with
      | tagged inner =>
        obtain ⟨y, hy, made, led⟩ := ih inner expanded
        exact ⟨y, hy, made, .content led⟩

theorem leads_expand {v w y : Value} (hv : v.WellKeyed) (h : v.expand = .ok w)
    (led : w.Leads id y) :
    ∃ x, v.Leads Mapping.merged x ∧ x.WellKeyed ∧ x.expand = .ok y := by
  induction led generalizing v with
  | here w => exact ⟨v, .here v, hv, h⟩
  | item hw _ ih =>
    cases expands_of_expand hv h with
    | seq each =>
      obtain ⟨x', hx', expanded⟩ := exists_of_forall₂ each.flip hw
      cases hv with
      | seq items =>
        obtain ⟨x, led, hx, made⟩ := ih (items _ hx') expanded
        exact ⟨x, .item hx' led, hx, made⟩
  | field hf _ ih =>
    cases expands_of_expand hv h with
    | map each =>
      obtain ⟨e, he, _, expanded⟩ := exists_of_forall₂ each.flip hf
      obtain ⟨x, led, hx, made⟩ := ih (wellKeyed_merged hv he).2 expanded
      exact ⟨x, .field he led, hx, made⟩
  | content _ ih =>
    cases expands_of_expand hv h with
    | tagged expanded =>
      cases hv with
      | tagged inner =>
        obtain ⟨x, led, hx, made⟩ := ih inner expanded
        exact ⟨x, .content led, hx, made⟩

end Walk
end Questionnaire.Yaml
