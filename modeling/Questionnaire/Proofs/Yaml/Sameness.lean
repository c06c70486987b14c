import Mathlib.Data.List.Find
import Mathlib.Data.List.Perm.Subperm
import Questionnaire.Proofs.Yaml.Merging

/-!
Equality of values that can be keys is an equivalence: two values that are equal to each other are
equal to the same values (`Value.WellKeyed.same_congr`). For mappings this needs that no key stands
twice in them, for then two mappings of one length of which the second holds the entries of the
first hold the same entries. A mapping thus keeps its keys different in another order, and the
expansion of merge keys gives a value that could have been read as well (`readable_expand`).
-/
namespace Questionnaire

theorem Binary64.same_congr {a b c : Binary64} (h : a.same b) : b.same c = a.same c := by
  cases a <;> cases b <;> cases c <;> simp_all [Binary64.same]
  grind

namespace Yaml

/-- If each element of a list has a partner of its own in a list that is no longer, each element of
that list is a partner. -/
theorem exists_partner {α β : Type} [Nonempty β] {R : α → β → Prop} {as : List α} {bs : List β}
    (each : ∀ a ∈ as, ∃ b ∈ bs, R a b)
    (apart : as.Pairwise fun a a' => ∀ b ∈ bs, R a b → ¬ R a' b) (length : bs.length ≤ as.length) :
    ∀ b ∈ bs, ∃ a ∈ as, R a b := by
  choose! partner mem related using each
  have nodup : (as.map partner).Nodup := by
    refine List.pairwise_map.mpr (List.Pairwise.imp_of_mem ?_ apart)
    intro a a' ha ha' apart same
    exact apart (partner a) (mem a ha) (related a ha) (same ▸ related a' ha')
  have subset : as.map partner ⊆ bs := by
    intro b hb
    obtain ⟨a, ha, rfl⟩ := List.mem_map.mp hb
    exact mem a ha
  have perm : (as.map partner).Perm bs :=
    (nodup.subperm subset).perm_of_length_le (by rwa [List.length_map])
  intro b hb
  obtain ⟨a, ha, rfl⟩ := List.mem_map.mp (perm.mem_iff.mpr hb)
  exact ⟨a, ha, related a ha⟩

theorem Number.same_congr {a b c : Number} (h : a.same b) : b.same c = a.same c := by
  cases a with
  | int m =>
    cases b with
    | int n => rw [eq_of_beq h]
    | float y => cases h
  | float x =>
    cases b with
    | int n => cases h
    | float y =>
      cases c with
      | int k => rfl
      | float z => exact Binary64.same_congr h

/-- A value that equals others in the way that all values equal to it do. -/
def Value.Congruent (a : Value) : Prop :=
  ∀ b c : Value, b.WellKeyed → c.WellKeyed → a.same b → b.same c = a.same c

theorem sameItems_congr {xs ys zs : List Value} (congruent : ∀ x ∈ xs, x.Congruent)
    (hys : ∀ y ∈ ys, y.WellKeyed) (hzs : ∀ z ∈ zs, z.WellKeyed) (h : sameItems xs ys) :
    sameItems ys zs = sameItems xs zs := by
  induction xs generalizing ys zs with
  | nil =>
    cases ys with
    | nil => rfl
    | cons y ys => cases h
  | cons x xs ih =>
    cases ys with
    | nil => cases h
    | cons y ys =>
      rw [sameItems, Bool.and_eq_true] at h
      cases zs with
      | nil => rfl
      | cons z zs =>
        rw [List.forall_mem_cons] at congruent hys hzs
        rw [sameItems, sameItems, congruent.1 y z hys.1 hzs.1 h.1,
          ih congruent.2 hys.2 hzs.2 h.2]

namespace Mapping

/-- Does a mapping hold an entry with the key and the value of a given one? -/
def holds (fs : Mapping) (e : Value × Value) : Bool :=
  match List.find? (fun f => e.1.same f.1) fs with
  | some f => e.2.same f.2
  | none => false

variable {es fs gs : Mapping} {e f : Value × Value}

theorem exists_of_holds (h : holds fs e) : ∃ f ∈ fs, e.1.same f.1 ∧ e.2.same f.2 := by
  rw [holds] at h
  split at h
  · rename_i f found
    have key : e.1.same f.1 := List.find?_some (p := fun f : Value × Value => e.1.same f.1) found
    exact ⟨f, List.mem_of_find?_eq_some found, key, h⟩
  · cases h

theorem holds_congr (key : ∀ g ∈ gs, f.1.same g.1 = e.1.same g.1)
    (value : ∀ g ∈ gs, f.2.same g.2 = e.2.same g.2) : holds gs f = holds gs e := by
  rw [holds, holds, List.find?_congr key]
  split
  · rename_i g found
    exact value g (List.mem_of_find?_eq_some found)
  · rfl

theorem sameEntries_eq_all : sameEntries es fs = es.all (holds fs) := by
  induction es with
  | nil => rfl
  | cons e es ih =>
    have cons : sameEntries (e :: es) fs = (holds fs e && sameEntries es fs) := rfl
    rw [cons, ih, List.all_cons]

theorem same_map : (Value.map es).same (.map fs) ↔
    es.length = fs.length ∧ ∀ e ∈ es, holds fs e := by
  rw [Value.same, sameEntries_eq_all, Bool.and_eq_true, beq_iff_eq, List.all_eq_true]

end Mapping

namespace Value
open Mapping

/-- Each of two equal mappings holds in a third what the other one does, as each entry of one has
its partner in the other. -/
theorem congruent_map {es : Mapping} (h : (map es).WellKeyed) (keys : ∀ e ∈ es, e.1.Congruent)
    (values : ∀ e ∈ es, e.2.Congruent) : (map es).Congruent := by
  intro b c hb hc same
  cases b with
  | map fs =>
    cases c with
    | map gs =>
      obtain ⟨length, each⟩ := same_map.mp same
      have partner : ∀ e ∈ es, ∃ f ∈ fs, e.1.same f.1 ∧ e.2.same f.2 := fun e he =>
        exists_of_holds (each e he)
      -- Two entries with one partner had one key.
      have apart : es.Pairwise fun e e' => ∀ f ∈ fs, e.1.same f.1 ∧ e.2.same f.2 →
          ¬ (e'.1.same f.1 ∧ e'.2.same f.2) := by
        refine List.Pairwise.imp_of_mem ?_ h.distinct
        intro e e' he he' different f hf related related'
        have one : f.1.same e.1 = e.1.same e.1 :=
          keys e he f.1 e.1 (hb.key hf) (h.key he) related.1
        have other : f.1.same e.1 = e'.1.same e.1 :=
          keys e' he' f.1 e.1 (hb.key hf) (h.key he) related'.1
        rw [one, (h.key he).same_self, different] at other
        cases other
      have partner' := exists_partner partner apart length.ge
      have agree : ∀ e ∈ es, ∀ f ∈ fs, e.1.same f.1 ∧ e.2.same f.2 → holds gs f = holds gs e := by
        intro e he f hf related
        exact holds_congr
          (fun g hg => keys e he f.1 g.1 (hb.key hf) (hc.key hg) related.1)
          (fun g hg => values e he f.2 g.2 (hb.value hf) (hc.value hg) related.2)
      rw [Bool.eq_iff_iff, same_map, same_map, length]
      refine and_congr_right fun _ => ⟨fun all e he => ?_, fun all f hf => ?_⟩
      · obtain ⟨f, hf, related⟩ := partner e he
        exact agree e he f hf related ▸ all f hf
      · obtain ⟨e, he, related⟩ := partner' f hf
        exact (agree e he f hf related).symm ▸ all e he
    | _ => rfl
  | _ => cases same

theorem WellKeyed.congruent {a : Value} (h : a.WellKeyed) : a.Congruent := by
  induction h with
  | null =>
    intro b c _ _ same
    cases b with
    | null => rfl
    | _ => cases same
  | bool x =>
    intro b c _ _ same
    cases b with
    | bool y => rw [eq_of_beq same]
    | _ => cases same
  | num m =>
    intro b c _ _ same
    cases b with
    | num n =>
      cases c with
      | num k => exact Number.same_congr same
      | _ => rfl
    | _ => cases same
  | str s =>
    intro b c _ _ same
    obtain rfl := same_str.mp same
    rfl
  | seq _ congruent =>
    intro b c hb hc same
    cases hb with
    | seq hys =>
      cases hc with
      | seq hzs => exact sameItems_congr congruent hys hzs same
      | _ => rfl
    | _ => cases same
  | map distinct keys values congruentKeys congruentValues =>
    exact congruent_map (.map distinct keys values) congruentKeys congruentValues
  | tagged _ congruent =>
    intro b c hb hc same
    cases hb with
    | tagged hv =>
      rw [Value.same, Bool.and_eq_true, beq_iff_eq] at same
      obtain ⟨rfl, same⟩ := same
      cases hc with
      | tagged hw => rw [Value.same, Value.same, congruent _ _ hv hw same]
      | _ => rfl
    | _ => cases same

variable {a b c : Value}

theorem WellKeyed.same_congr (ha : a.WellKeyed) (hb : b.WellKeyed) (hc : c.WellKeyed)
    (h : a.same b) : b.same c = a.same c :=
  ha.congruent b c hb hc h

theorem WellKeyed.same_comm (ha : a.WellKeyed) (hb : b.WellKeyed) : a.same b = b.same a := by
  rw [Bool.eq_iff_iff]
  constructor
  · intro h
    rw [ha.same_congr hb ha h]
    exact ha.same_self
  · intro h
    rw [hb.same_congr ha hb h]
    exact hb.same_self

end Value

namespace Mapping

theorem Distinct.perm {es fs : Mapping} (distinct : Distinct es)
    (keys : ∀ e ∈ es, e.1.WellKeyed) (perm : es.Perm fs) : Distinct fs := by
  let apart (e f : Value × Value) := f.1.same e.1 = false ∧ e.1.same f.1 = false
  have es_apart : es.Pairwise apart := by
    refine List.Pairwise.imp_of_mem ?_ distinct
    intro e f he hf different
    exact ⟨different, ((keys e he).same_comm (keys f hf)).trans different⟩
  have fs_apart : fs.Pairwise apart := perm.pairwise es_apart And.symm
  exact fs_apart.imp And.left

theorem Distinct.eq_of_same {es : Mapping} (distinct : Distinct es)
    (keys : ∀ e ∈ es, e.1.WellKeyed) {e f : Value × Value} (he : e ∈ es) (hf : f ∈ es)
    (same : e.1.same f.1) : e = f := by
  have turned : f.1.same e.1 := (keys f hf).same_comm (keys e he) ▸ same
  obtain ⟨before, behind, rfl⟩ := List.append_of_mem he
  obtain ⟨_, rest, apart⟩ := List.pairwise_append.mp distinct
  rcases List.mem_append.mp hf with hf | hf
  · rw [apart f hf e List.mem_cons_self] at same
    cases same
  · rcases List.mem_cons.mp hf with rfl | hf
    · rfl
    · rw [(List.pairwise_cons.mp rest).1 f hf] at turned
      cases turned

theorem distinct_merged {es : Mapping} (h : (Value.map es).WellKeyed) : Distinct es.merged := by
  have kept : Distinct (es.filter fun e => !mergeKey.same e.1) := h.distinct.filter _
  have keys : ∀ e ∈ es.filter (fun e => !mergeKey.same e.1), e.1.WellKeyed := fun e he =>
    h.key (List.mem_filter.mp he).1
  exact distinct_foldl_addAbsent (kept.perm keys (swapErase_perm h.distinct).symm)

end Mapping

section Expansion
variable {depth : Nat}

theorem readable_source {es s : Mapping} (h : es.Readable depth) (hs : s ∈ es.sources) :
    s.Readable depth := by
  obtain ⟨e, he, source⟩ := Mapping.mem_sources hs
  have value := h.values e he
  have inner : (Value.map s).Readable depth := by
    rcases source with eq | ⟨items, eq, item⟩
    · exact eq ▸ value
    · rw [eq] at value
      cases value with
      | seq each => exact (each _ item).mono (Nat.le_succ _)
  exact (inner.mono (Nat.le_succ depth)).fields

theorem readable_merged {es : Mapping} (h : es.Readable depth) : es.merged.Readable depth := by
  have each : ∀ e ∈ es.merged, e.1.Readable depth ∧ e.2.Readable depth := by
    intro e he
    rcases Mapping.mem_merged h.distinct he with own | ⟨s, hs, hes⟩
    · exact ⟨h.keys e own, h.values e own⟩
    · exact ⟨(readable_source h hs).keys e hes, (readable_source h hs).values e hes⟩
  exact ⟨Mapping.distinct_merged h.map.wellKeyed, fun e he => (each e he).1,
    fun e he => (each e he).2⟩

/-- An expanded mapping holds values that stood at most as deep as its own do. -/
theorem readable_expand {v w : Value} (h : v.Readable depth) (made : v.expand = .ok w) :
    w.Readable depth := by
  induction depth using Nat.strongRecOn generalizing v w with
  | ind depth below =>
    induction h generalizing w with
    | null => cases made; exact .null
    | bool b => cases made; exact .bool b
    | num range => cases made; exact .num range
    | str s => cases made; exact .str s
    | @seq depth items readable _ =>
      cases expands_of_expand (Value.Readable.seq readable).wellKeyed made with
      | seq each =>
        refine .seq fun w hw => ?_
        obtain ⟨x, hx, made⟩ := exists_of_forall₂ each.flip hw
        exact below depth (Nat.lt_succ_self depth) (readable x hx) made
    | @map depth es distinct keys values _ _ =>
      have merged := readable_merged (Value.Readable.map distinct keys values).fields
      cases expands_of_expand (Value.Readable.map distinct keys values).wellKeyed made with
      | @map _ fs become =>
        have distinct : Mapping.Distinct fs := by
          rw [Mapping.distinct_iff_keys, becomes_keys become, ← Mapping.distinct_iff_keys]
          exact merged.distinct
        refine .map distinct ?_ ?_ <;> intro f hf <;>
          obtain ⟨e, he, key, made⟩ := exists_of_forall₂ become.flip hf
        · exact key ▸ merged.keys e he
        · exact below depth (Nat.lt_succ_self depth) (merged.values e he) made
    | @tagged depth tag v readable ih =>
      cases expands_of_expand (Value.Readable.tagged readable).wellKeyed made with
      | tagged inner => exact .tagged (ih below inner)

end Expansion

end Yaml
end Questionnaire
