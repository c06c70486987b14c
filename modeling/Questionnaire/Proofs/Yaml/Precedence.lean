import Questionnaire.Proofs.Yaml.MergeFree
import Questionnaire.Proofs.Yaml.Mergeable
import Questionnaire.Proofs.Yaml.Sameness

/-!
Which entry wins when a merge key is expanded. A mapping keeps its own entries, and another key gets
what it has in the first source that has it (`Mapping.Prevails`). Where no source has a merge key of
its own, the expansion is this rule, applied to each mapping and then to all that has been chosen
(`mergesTo_of_expand`).
-/
namespace Questionnaire.Yaml

namespace Mapping

section AddAbsent
variable {α : Type} {es more : List (Value × α)} {e : Value × α}

theorem mem_addAbsent (distinct : Distinct more) :
    e ∈ addAbsent es more ↔ e ∈ es ∨ e ∈ more ∧ contains e.1 es = false := by
  induction more generalizing es with
  | nil => simp [addAbsent]
  | cons f more ih =>
    obtain ⟨apart, rest⟩ := List.pairwise_cons.mp distinct
    rw [addAbsent_cons, ih rest, List.mem_cons]
    split
    · rename_i present
      have old : ¬ (e = f ∧ contains e.1 es = false) := by
        rintro ⟨rfl, absent⟩
        rw [present] at absent
        cases absent
      tauto
    · rename_i absent
      -- The keys of one list are different, so `f` is in the way of none of the later ones.
      have later : e ∈ more → contains e.1 (es ++ [f]) = contains e.1 es := by
        intro he
        rw [contains_append]
        simp [contains, apart e he]
      have new : e = f → contains e.1 es = false := by
        rintro rfl
        simpa using absent
      rw [List.mem_append, List.mem_singleton]
      constructor
      · rintro ((old | rfl) | ⟨he, other⟩)
        · exact .inl old
        · exact .inr ⟨.inl rfl, new rfl⟩
        · exact .inr ⟨.inr he, later he ▸ other⟩
      · rintro (old | ⟨rfl | he, other⟩)
        · exact .inl (.inl old)
        · exact .inl (.inr rfl)
        · exact .inr ⟨he, (later he).trans other⟩

/-- A key that is not added is there already. -/
theorem contains_addAbsent_iff {key : Value} (hkey : key.WellKeyed)
    (hes : ∀ e ∈ es, e.1.WellKeyed) (hmore : ∀ e ∈ more, e.1.WellKeyed) :
    contains key (addAbsent es more) ↔ contains key es ∨ contains key more := by
  induction more generalizing es with
  | nil => simp [addAbsent, contains]
  | cons f more ih =>
    rw [List.forall_mem_cons] at hmore
    rw [addAbsent_cons, contains_cons, Bool.or_eq_true, ← or_assoc]
    split
    · rename_i present
      -- Both `key` and a key in `es` equal that of `f`, so they equal each other.
      have old : key.same f.1 → contains key es := by
        intro same
        obtain ⟨g, hg, there⟩ := List.any_eq_true.mp present
        refine List.any_eq_true.mpr ⟨g, hg, ?_⟩
        rw [← hkey.same_congr hmore.1 (hes g hg) same]
        exact there
      rw [ih hes hmore.2, or_iff_left_of_imp old]
    · have both : ∀ e ∈ es ++ [f], e.1.WellKeyed := by
        intro e he
        rcases List.mem_append.mp he with he | he
        · exact hes e he
        · exact List.mem_singleton.mp he ▸ hmore.1
      rw [ih both hmore.2, contains_append, Bool.or_eq_true]
      simp [contains]

/-- One of these lists has the entry, and no list before it has the key. -/
def FirstIn (ss : List (List (Value × α))) (e : Value × α) : Prop :=
  Finds (contains e.1 · = false) (e ∈ ·) ss

theorem firstIn_cons {s : List (Value × α)} {ss : List (List (Value × α))} :
    FirstIn (s :: ss) e ↔ e ∈ s ∨ contains e.1 s = false ∧ FirstIn ss e := finds_cons

theorem mem_foldl_addAbsent {ss : List (List (Value × α))} (hes : ∀ e ∈ es, e.1.WellKeyed)
    (keys : ∀ s ∈ ss, ∀ e ∈ s, e.1.WellKeyed) (distinct : ∀ s ∈ ss, Distinct s) :
    e ∈ ss.foldl addAbsent es ↔ e ∈ es ∨ contains e.1 es = false ∧ FirstIn ss e := by
  induction ss generalizing es with
  | nil => simp [FirstIn, finds_nil]
  | cons s ss ih =>
    rw [List.forall_mem_cons] at keys distinct
    have added : ∀ f ∈ addAbsent es s, f.1.WellKeyed := by
      intro f hf
      rcases (mem_addAbsent distinct.1).mp hf with old | ⟨new, _⟩
      · exact hes f old
      · exact keys.1 f new
    have absent : FirstIn ss e → (contains e.1 (addAbsent es s) = false ↔
        contains e.1 es = false ∧ contains e.1 s = false) := by
      intro first
      obtain ⟨t, ht, he⟩ := first.exists_mem
      rw [← not_iff_not, Bool.not_eq_false,
        contains_addAbsent_iff (keys.2 t ht e he) hes keys.1, not_and_or, Bool.not_eq_false,
        Bool.not_eq_false]
    rw [List.foldl_cons, ih added keys.2 distinct.2, mem_addAbsent distinct.1, firstIn_cons]
    constructor
    · rintro ((old | ⟨new, other⟩) | ⟨other, first⟩)
      · exact .inl old
      · exact .inr ⟨other, .inl new⟩
      · obtain ⟨outside, later⟩ := (absent first).mp other
        exact .inr ⟨outside, .inr ⟨later, first⟩⟩
    · rintro (old | ⟨outside, new | ⟨later, first⟩⟩)
      · exact .inl (.inl old)
      · exact .inl (.inr ⟨new, outside⟩)
      · exact .inr ⟨(absent first).mpr ⟨outside, later⟩, first⟩

end AddAbsent

/-- The entries that stand in a mapping when its merge key is expanded: its own, and for another key
what the first source with this key has. -/
inductive Prevails (es : Mapping) : Value × Value → Prop
  | own {e : Value × Value} : e ∈ es → e.1 ≠ mergeKey → Prevails es e
  | source {e : Value × Value} : contains e.1 es = false → FirstIn es.sources e → Prevails es e

/-- The entries that prevail, each key once. -/
structure Resolved (es os : Mapping) : Prop where
  once : Distinct os
  gone : contains mergeKey os = false
  mem_iff : ∀ e, e ∈ os ↔ es.Prevails e

theorem contains_swapErase {es : Mapping} (distinct : Distinct es) {key : Value}
    (other : key ≠ mergeKey) : contains key (swapErase mergeKey es) = contains key es := by
  rw [Bool.eq_iff_iff, contains, contains, List.any_eq_true, List.any_eq_true]
  refine exists_congr fun e => ?_
  rw [mem_swapErase distinct]
  have kept : key.same e.1 → mergeKey.same e.1 = false := by
    intro same
    rw [Bool.eq_false_iff, ne_eq, mergeKey, same_str]
    intro merge
    rw [merge] at same
    exact other (str_same.mp same)
  tauto

theorem ne_mergeKey {s : Mapping} (unmerged : contains mergeKey s = false) {e : Value × Value}
    (he : e ∈ s) : e.1 ≠ mergeKey := by
  intro merge
  exact List.any_eq_false.mp unmerged e he (same_str.mpr merge)

theorem resolved_merged {es : Mapping} (h : (Value.map es).WellKeyed)
    (flat : ∀ s ∈ es.sources, contains mergeKey s = false) : es.Resolved es.merged := by
  constructor
  · exact distinct_merged h
  · rw [Bool.eq_false_iff, ne_eq, contains_merged h.distinct]
    rintro ⟨s, hs, present⟩
    rw [flat s hs] at present
    cases present
  · intro e
    have own : ∀ f ∈ swapErase mergeKey es, f.1.WellKeyed := fun f hf =>
      h.key ((mem_swapErase h.distinct).mp hf).1
    have keys : ∀ s ∈ es.sources, ∀ f ∈ s, f.1.WellKeyed := fun s hs f hf =>
      (wellKeyed_source h hs).key hf
    have distinct : ∀ s ∈ es.sources, Distinct s := fun s hs => (wellKeyed_source h hs).distinct
    have other : FirstIn es.sources e → e.1 ≠ mergeKey := by
      intro first
      obtain ⟨s, hs, he⟩ := first.exists_mem
      exact ne_mergeKey (flat s hs) he
    rw [merged, mem_foldl_addAbsent own keys distinct, mem_swapErase h.distinct, Bool.eq_false_iff,
      ne_eq, mergeKey, same_str]
    constructor
    · rintro (⟨he, apart⟩ | ⟨absent, first⟩)
      · exact .own he apart
      · exact .source (contains_swapErase h.distinct (other first) ▸ absent) first
    · intro prevails
      cases prevails with
      | own he apart => exact .inl ⟨he, apart⟩
      | source absent first =>
        exact .inr ⟨(contains_swapErase h.distinct (other first)).trans absent, first⟩

theorem Resolved.wellKeyed {es os : Mapping} (resolved : es.Resolved os)
    (h : (Value.map es).WellKeyed) {e : Value × Value} (he : e ∈ os) : e.1.WellKeyed := by
  cases (resolved.mem_iff e).mp he with
  | own he _ => exact h.key he
  | source _ first =>
    obtain ⟨s, hs, he⟩ := first.exists_mem
    exact (wellKeyed_source h hs).key he

/-- Nothing takes the place of an own entry. -/
theorem Resolved.own {es os : Mapping} (resolved : es.Resolved os) (h : (Value.map es).WellKeyed)
    {e f : Value × Value} (he : e ∈ es) (other : e.1 ≠ mergeKey) (hf : f ∈ os)
    (same : e.1.same f.1) : f = e := by
  have stays : e ∈ os := (resolved.mem_iff e).mpr (.own he other)
  exact (resolved.once.eq_of_same (fun _ => resolved.wellKeyed h) stays hf same).symm

end Mapping

namespace Value

/-- No source of a mapping in a value has a merge key of its own. -/
def FlatSources (v : Value) : Prop :=
  ∀ es : Mapping, v.Leads id (.map es) → ∀ s ∈ es.sources,
    Mapping.contains Mapping.mergeKey s = false

/-- The rule of merge keys in each mapping of a value: where entries are chosen the rule has been
followed in what stands at them, too. -/
inductive MergesTo : Value → Value → Prop
  | null : MergesTo .null .null
  | bool (b : Bool) : MergesTo (.bool b) (.bool b)
  | num (n : Number) : MergesTo (.num n) (.num n)
  | str (s : String) : MergesTo (.str s) (.str s)
  | seq {items ws : List Value} : List.Forall₂ MergesTo items ws → MergesTo (.seq items) (.seq ws)
  | map {es os fs : Mapping} : es.Resolved os → fs.map Prod.fst = os.map Prod.fst →
      List.Forall₂ MergesTo (os.map Prod.snd) (fs.map Prod.snd) → MergesTo (.map es) (.map fs)
  | tagged {tag : Tag} {v w : Value} : MergesTo v w → MergesTo (.tagged tag v) (.tagged tag w)

theorem MergesTo.eq_of_scalar {v w : Value} {text : String} (h : v.MergesTo w)
    (scalar : w.scalarText? = some text) : v = w := by
  cases h with
  | seq _ => cases scalar
  | map _ _ _ => cases scalar
  | tagged _ => cases scalar
  | _ => rfl

theorem exists_find? {os fs : Mapping} (keys : fs.map Prod.fst = os.map Prod.fst)
    (values : List.Forall₂ MergesTo (os.map Prod.snd) (fs.map Prod.snd)) {key v : Value}
    (found : Mapping.find? key os = some v) :
    ∃ w, Mapping.find? key fs = some w ∧ v.MergesTo w := by
  induction os generalizing fs with
  | nil => cases found
  | cons e os ih =>
    cases fs with
    | nil => cases keys
    | cons f fs =>
      obtain ⟨first, rest⟩ := List.cons.inj keys
      obtain ⟨value, values⟩ := List.forall₂_cons.mp values
      rw [Mapping.find?_cons] at found ⊢
      rw [first]
      split at found
      · obtain rfl := Option.some.inj found
        rename_i same
        rw [if_pos same]
        exact ⟨f.2, rfl, value⟩
      · rename_i apart
        rw [if_neg apart]
        exact ih rest values found

/-- At the key of an own entry stands what has become of this entry. -/
theorem MergesTo.own {es fs : Mapping} (h : (Value.map es).MergesTo (.map fs)) {e : Value × Value}
    (he : e ∈ es) (other : e.1 ≠ Mapping.mergeKey) (reflexive : e.1.same e.1) :
    ∃ w, Mapping.find? e.1 fs = some w ∧ e.2.MergesTo w := by
  cases h with
  | map resolved keys values =>
    have stays := (resolved.mem_iff e).mpr (.own he other)
    exact exists_find? keys values (resolved.once.find?_of_mem stays reflexive)

/-- What an expansion comes to is part of the value. -/
theorem leads_id {v x : Value} (hv : v.WellKeyed) (led : v.Leads Mapping.merged x) :
    v.Leads id x := by
  induction led with
  | here v => exact .here v
  | item hx _ ih =>
    cases hv with
    | seq each => exact .item hx (ih (each _ hx))
  | @field es e _ he _ ih =>
    have below := ih (wellKeyed_merged hv he).2
    rcases Mapping.mem_merged hv.distinct he with own | ⟨s, hs, hes⟩
    · exact .field own below
    · have inside : (Value.map s).Leads id _ := .field hes below
      obtain ⟨f, hf, source⟩ := Mapping.mem_sources hs
      refine .field hf ?_
      rcases source with eq | ⟨items, eq, item⟩
      · exact eq ▸ inside
      · rw [eq]
        exact .item item inside
  | content _ ih =>
    cases hv with
    | tagged inner => exact .content (ih inner)

theorem FlatSources.mergesOnce {v : Value} (flat : v.FlatSources) (hv : v.WellKeyed) :
    v.MergesOnce := fun es led => flat es (leads_id hv led)

theorem flatSources_map {es : Mapping} : (Value.map es).FlatSources ↔
    (∀ s ∈ es.sources, Mapping.contains Mapping.mergeKey s = false) ∧
      ∀ e ∈ es, e.2.FlatSources := by
  constructor
  · intro flat
    exact ⟨flat es (.here _), fun e he fs led => flat fs (.field he led)⟩
  · rintro ⟨top, below⟩ fs led
    cases led with
    | here _ => exact top
    | field he led => exact below _ he fs led

theorem flatSources_seq {items : List Value} :
    (Value.seq items).FlatSources ↔ ∀ x ∈ items, x.FlatSources := by
  constructor
  · intro flat x hx es led
    exact flat es (.item hx led)
  · intro each es led
    cases led with
    | item hx led => exact each _ hx es led

theorem flatSources_tagged {tag : Tag} {v : Value} :
    (Value.tagged tag v).FlatSources ↔ v.FlatSources := by
  constructor
  · intro flat es led
    exact flat es (.content led)
  · intro inner es led
    cases led with
    | content led => exact inner es led

theorem flatSources_str (s : String) : (Value.str s).FlatSources := by
  intro es led
  cases led

end Value

/-- Where merge keys are not chained a value is expanded by the rule, at every depth. -/
theorem mergesTo_of_expand {v w : Value} (hv : v.WellKeyed) (once : v.MergesOnce)
    (h : v.expand = .ok w) : v.MergesTo w := by
  have layer := expands_of_expand hv h
  cases hv with
  | null => cases layer; exact .null
  | bool b => cases layer; exact .bool b
  | num n => cases layer; exact .num n
  | str s => cases layer; exact .str s
  | @seq items each =>
    have below : ∀ x ∈ items, ∀ y, x.expand = .ok y → x.MergesTo y := by
      intro x hx y made
      exact mergesTo_of_expand (each x hx) (fun es led => once es (.item hx led)) made
    cases layer with
    | seq made => exact .seq (forall₂_imp_mem made below)
  | @map es distinct keys values =>
    have hes : (Value.map es).WellKeyed := .map distinct keys values
    have below : ∀ e ∈ es.merged, ∀ f : Value × Value, Becomes e f → e.2.MergesTo f.2 := by
      intro e he f made
      have smaller := sizeOf_merged distinct he
      exact mergesTo_of_expand (wellKeyed_merged hes he).2
        (fun fs led => once fs (.field he led)) made.2
    cases layer with
    | map become =>
      refine .map (Mapping.resolved_merged hes (once es (.here _))) (becomes_keys become) ?_
      rw [List.forall₂_map_left_iff, List.forall₂_map_right_iff]
      exact forall₂_imp_mem become below
  | tagged inner =>
    cases layer with
    | tagged made =>
      exact .tagged (mergesTo_of_expand inner (fun es led => once es (.content led)) made)
termination_by sizeOf v

end Questionnaire.Yaml
