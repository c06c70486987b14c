import Questionnaire.Proofs.Yaml.Mapping
import Questionnaire.Yaml.Read

/-!
What every value has that is read from a text (`readable_ofString`): no mapping in it, in its keys or
at them, has one key twice, its integers fit 64 bits, and it has at most 128 levels of collections.
Each step of the reader gives such values if the steps below it do (`Reader.Gives`). On values with
such keys equality is reflexive, so the keys of a mapping are different as terms too.
-/
namespace Questionnaire.Yaml

/-- No mapping has one key twice. -/
inductive Value.WellKeyed : Value → Prop
  | null : WellKeyed .null
  | bool (b : Bool) : WellKeyed (.bool b)
  | num (n : Number) : WellKeyed (.num n)
  | str (s : String) : WellKeyed (.str s)
  | seq {items : List Value} : (∀ x ∈ items, WellKeyed x) → WellKeyed (.seq items)
  | map {es : Mapping} : Mapping.Distinct es → (∀ e ∈ es, WellKeyed e.1) →
      (∀ e ∈ es, WellKeyed e.2) → WellKeyed (.map es)
  | tagged {tag : Tag} {v : Value} : WellKeyed v → WellKeyed (.tagged tag v)

namespace Value.WellKeyed
variable {es : Mapping}

theorem distinct (h : (Value.map es).WellKeyed) : Mapping.Distinct es := by
  cases h with
  | map distinct _ _ => exact distinct

theorem key (h : (Value.map es).WellKeyed) {e : Value × Value} (he : e ∈ es) : e.1.WellKeyed := by
  cases h with
  | map _ keys _ => exact keys e he

theorem value (h : (Value.map es).WellKeyed) {e : Value × Value} (he : e ∈ es) :
    e.2.WellKeyed := by
  cases h with
  | map _ _ values => exact values e he

end Value.WellKeyed

/-- The integers that are read as numbers. -/
def Number.InRange : Number → Prop
  | .int n => -0x8000000000000000 ≤ n ∧ n ≤ 0xFFFFFFFFFFFFFFFF
  | .float _ => True

/-- A value with no more than so many levels of collections that can be read from a text. -/
inductive Value.Readable : Nat → Value → Prop
  | null {depth : Nat} : Readable depth .null
  | bool {depth : Nat} (b : Bool) : Readable depth (.bool b)
  | num {depth : Nat} {n : Number} : n.InRange → Readable depth (.num n)
  | str {depth : Nat} (s : String) : Readable depth (.str s)
  | seq {depth : Nat} {items : List Value} : (∀ x ∈ items, Readable depth x) →
      Readable (depth + 1) (.seq items)
  | map {depth : Nat} {es : Mapping} : Mapping.Distinct es → (∀ e ∈ es, Readable depth e.1) →
      (∀ e ∈ es, Readable depth e.2) → Readable (depth + 1) (.map es)
  | tagged {depth : Nat} {tag : Tag} {v : Value} : Readable depth v → Readable depth (.tagged tag v)

theorem Value.Readable.wellKeyed {depth : Nat} {v : Value} (h : v.Readable depth) :
    v.WellKeyed := by
  induction h with
  | null => exact .null
  | bool b => exact .bool b
  | num _ => exact .num _
  | str s => exact .str s
  | seq _ items => exact .seq items
  | map distinct _ _ keys values => exact .map distinct keys values
  | tagged _ ih => exact .tagged ih

theorem Value.Readable.mono {depth depth' : Nat} {v : Value} (h : v.Readable depth)
    (le : depth ≤ depth') : v.Readable depth' := by
  induction h generalizing depth' with
  | null => exact .null
  | bool b => exact .bool b
  | num range => exact .num range
  | str s => exact .str s
  | seq _ ih =>
    obtain ⟨k, rfl⟩ := Nat.exists_eq_succ_of_ne_zero
      (Nat.ne_of_gt (Nat.lt_of_lt_of_le (Nat.succ_pos _) le))
    exact .seq fun x hx => ih x hx (Nat.le_of_succ_le_succ le)
  | map distinct _ _ keys values =>
    obtain ⟨k, rfl⟩ := Nat.exists_eq_succ_of_ne_zero
      (Nat.ne_of_gt (Nat.lt_of_lt_of_le (Nat.succ_pos _) le))
    exact .map distinct (fun e he => keys e he (Nat.le_of_succ_le_succ le))
      fun e he => values e he (Nat.le_of_succ_le_succ le)
  | tagged _ ih => exact .tagged (ih le)

theorem Number.same_self (n : Number) : n.same n := by
  cases n with
  | int n => simp [Number.same]
  | float x => cases x <;> simp [Number.same, Binary64.same]

theorem sameItems_self {items : List Value} (h : ∀ x ∈ items, x.same x) :
    sameItems items items := by
  induction items with
  | nil => rfl
  | cons x xs ih =>
    rw [sameItems, h x List.mem_cons_self, Bool.true_and]
    exact ih fun y hy => h y (List.mem_cons_of_mem x hy)

/-- Each entry finds itself, as no entry before it has its key. -/
theorem sameEntries_self {before es : Mapping} (distinct : Mapping.Distinct (before ++ es))
    (keys : ∀ e ∈ es, e.1.same e.1) (values : ∀ e ∈ es, e.2.same e.2) :
    sameEntries es (before ++ es) := by
  induction es generalizing before with
  | nil => rfl
  | cons e es ih =>
    have earlier : ∀ x ∈ before, ¬ e.1.same x.1 = true := by
      intro x hx
      have apart := (List.pairwise_append.mp distinct).2.2 x hx e List.mem_cons_self
      simp [apart]
    have itself : List.find? (fun f => e.1.same f.1) (before ++ e :: es) = some e := by
      rw [List.find?_append, List.find?_eq_none.mpr earlier, List.find?_cons,
        keys e List.mem_cons_self]
      rfl
    obtain ⟨k, v⟩ := e
    rw [sameEntries]
    rw [itself]
    have rest : sameEntries es ((before ++ [(k, v)]) ++ es) := ih (by simpa using distinct)
      (fun f hf => keys f (List.mem_cons_of_mem _ hf))
      (fun f hf => values f (List.mem_cons_of_mem _ hf))
    rw [List.append_assoc] at rest
    simp only [values (k, v) List.mem_cons_self, Bool.true_and]
    exact rest

theorem Value.WellKeyed.same_self {v : Value} (h : v.WellKeyed) : v.same v := by
  induction h with
  | null => rfl
  | bool b => simp [Value.same]
  | num n => rw [Value.same]; exact n.same_self
  | str s => simp [Value.same]
  | seq _ ih => rw [Value.same]; exact sameItems_self ih
  | map distinct _ _ keys values =>
    rw [Value.same, beq_self_eq_true, Bool.true_and]
    exact @sameEntries_self [] _ distinct keys values
  | tagged _ ih => simp [Value.same, ih]

theorem Value.WellKeyed.nodup {es : Mapping} (h : (Value.map es).WellKeyed) :
    (es.map Prod.fst).Nodup := by
  rw [List.Nodup, List.pairwise_map]
  refine List.Pairwise.imp_of_mem ?_ h.distinct
  intro e f he _ apart same
  rw [← same, (h.key he).same_self] at apart
  cases apart

/-- The entries of a mapping that can be read, its keys and values having at most so many levels. -/
structure Mapping.Readable (depth : Nat) (es : Mapping) : Prop where
  distinct : Mapping.Distinct es
  keys : ∀ e ∈ es, e.1.Readable depth
  values : ∀ e ∈ es, e.2.Readable depth

theorem Mapping.Readable.map {depth : Nat} {es : Mapping} (h : es.Readable depth) :
    (Value.map es).Readable (depth + 1) := .map h.distinct h.keys h.values

theorem Value.Readable.fields {depth : Nat} {es : Mapping}
    (h : (Value.map es).Readable (depth + 1)) : es.Readable depth := by
  cases h with
  | map distinct keys values => exact ⟨distinct, keys, values⟩

theorem Mapping.Readable.concat {depth : Nat} {es : Mapping} {key v : Value} (h : es.Readable depth)
    (hkey : key.Readable depth) (hv : v.Readable depth) (fresh : Mapping.contains key es = false) :
    Mapping.Readable depth (es ++ [(key, v)]) := by
  refine ⟨h.distinct.concat fresh, ?_, ?_⟩
  · intro e he
    rcases List.mem_append.mp he with he | he
    · exact h.keys e he
    · obtain rfl := List.mem_singleton.mp he
      exact hkey
  · intro e he
    rcases List.mem_append.mp he with he | he
    · exact h.values e he
    · obtain rfl := List.mem_singleton.mp he
      exact hv

theorem Mapping.Readable.erase {depth : Nat} {es : Mapping} {key : Value} (h : es.Readable depth) :
    Mapping.Readable depth (Mapping.erase key es) := by
  have kept : (Mapping.erase key es).Sublist es := List.eraseP_sublist
  exact ⟨h.distinct.sublist kept, fun e he => h.keys e (kept.subset he),
    fun e he => h.values e (kept.subset he)⟩

theorem Mapping.Readable.insert {depth : Nat} {es : Mapping} {s : String} {v : Value}
    (h : es.Readable depth) (hv : v.Readable depth) :
    Mapping.Readable depth (Mapping.insert (.str s) v es) := by
  refine ⟨h.distinct.insert_str v, fun e he => ?_, fun e he => ?_⟩
  · by_cases new : e.1 = .str s
    · exact new ▸ .str s
    · exact h.keys e ((Mapping.mem_insert_str new).mp he)
  · rcases Mapping.mem_insert he with value | old
    · exact value ▸ hv
    · exact h.values e old

/-- Whatever a reader reads has a property. -/
def Reader.Gives {α : Type} (P : α → Prop) (m : Reader α) : Prop :=
  ∀ n a k, m.run n = .ok (a, k) → P a

namespace Reader.Gives
variable {α β : Type} {P : α → Prop} {Q : β → Prop}

theorem pure {a : α} (h : P a) : Gives P (pure a) := by
  rintro n b k ⟨⟩
  exact h

theorem throw (e : ReadError) : Gives P (throw e) := by
  rintro n b k ⟨⟩

theorem bind {m : Reader β} {f : β → Reader α} (first : Gives Q m)
    (next : ∀ b, Q b → Gives P (f b)) : Gives P (m >>= f) := by
  intro n a k h
  rw [StateT.run_bind] at h
  cases hm : m.run n with
  | error e => rw [hm] at h; cases h
  | ok r =>
    rw [hm] at h
    exact next r.1 (first n r.1 r.2 hm) r.2 a k h

theorem any (m : Reader α) : Gives (fun _ => True) m := fun _ _ _ _ => trivial

theorem mapM {f : β → Reader α} (each : ∀ b, Gives P (f b)) (bs : List β) :
    Gives (fun as => ∀ a ∈ as, P a) (bs.mapM f) := by
  induction bs with
  | nil => exact pure fun a ha => absurd ha List.not_mem_nil
  | cons b bs ih =>
    rw [List.mapM_cons]
    refine bind (each b) fun a ha => bind ih fun as has => pure ?_
    intro x hx
    rcases List.mem_cons.mp hx with rfl | hx
    · exact ha
    · exact has x hx

theorem foldlM {f : α → β → Reader α} (step : ∀ a b, P a → Gives P (f a b)) (bs : List β) {a : α}
    (start : P a) : Gives P (bs.foldlM f a) := by
  induction bs generalizing a with
  | nil => exact pure start
  | cons b bs ih =>
    rw [List.foldlM_cons]
    exact bind (step a b start) fun _ h => ih h

end Reader.Gives

variable {depth : Nat}

theorem readable_resolveInt? {text : String} {v : Value} (h : resolveInt? text = some (.value v)) :
    v.Readable depth := by
  rw [resolveInt?] at h
  split at h
  · cases h
  · split at h
    · rename_i range
      cases h
      exact .num range
    · split at h <;> cases h

theorem readable_resolvePlain {text : String} {v : Value} (h : resolvePlain text = .value v) :
    v.Readable depth := by
  rw [resolvePlain] at h
  split at h
  · cases h; exact .null
  · split at h
    · cases h; exact .bool _
    · split at h
      · rename_i r hr
        subst h
        exact readable_resolveInt? hr
      · split at h
        · cases h; exact .num trivial
        · cases h; exact .str _

theorem readable_resolveAs {kind : ScalarKind} {text : String} {v : Value}
    (h : resolveAs kind text = .ok v) : v.Readable depth := by
  cases kind with
  | null =>
    simp only [resolveAs] at h
    split at h <;> cases h
    exact .null
  | bool =>
    simp only [resolveAs] at h
    split at h <;> cases h
    exact .bool _
  | int =>
    simp only [resolveAs] at h
    split at h
    · rename_i hr
      cases h
      exact readable_resolveInt? hr
    · cases h
    · cases h
  | float =>
    simp only [resolveAs] at h
    split at h <;> cases h
    exact .num trivial

theorem readable_untagged {text : String} {style : Style} {v : Value}
    (h : resolveScalar none text style = .ok v) : v.Readable depth := by
  simp only [resolveScalar] at h
  split at h
  · split at h
    · rename_i resolved
      cases h
      exact readable_resolvePlain resolved
    · cases h
  · cases h; exact .str _

theorem readable_resolveScalar {tag : Option (List UInt8)} {text : String} {style : Style}
    {v : Value} (h : resolveScalar tag text style = .ok v) : v.Readable depth := by
  cases tag with
  | none => exact readable_untagged h
  | some bytes =>
    simp only [resolveScalar] at h
    split at h
    · exact readable_resolveAs h
    · split at h
      · exact readable_untagged h
      · cases h; exact .str _

namespace Document
variable (d : Document)

open Reader

theorem gives_value (depth : Nat) (tagged : Bool) (path : Path) (node : Node) :
    Gives (Value.Readable depth) (d.value depth tagged path node) := by
  induction depth using Nat.strongRecOn generalizing tagged path node with
  | ind depth ih =>
    rw [value]
    refine Gives.bind (Gives.any _) fun followed _ => ?_
    obtain ⟨tagged, path, node⟩ := followed
    cases node with
    | scalar tag text style mark =>
      simp only
      split
      · rename_i v resolved
        have scalar : v.Readable depth := readable_resolveScalar resolved
        refine Gives.pure ?_
        split
        · exact .tagged scalar
        · exact scalar
      · exact Gives.throw _
    | seq tag mark items =>
      cases depth with
      | zero => exact Gives.throw _
      | succ depth =>
        have each : ∀ item : Node × Nat, Gives (Value.Readable depth)
            (d.value depth false (.index path item.2) item.1) := fun item =>
          ih depth (Nat.lt_succ_self depth) _ _ _
        refine Gives.bind (Gives.mapM each _) fun values readable => Gives.pure ?_
        dsimp only
        split
        · exact .tagged (.seq readable)
        · exact .seq readable
    | map tag mark entries =>
      cases depth with
      | zero => exact Gives.throw _
      | succ depth =>
        have each := ih depth (Nat.lt_succ_self depth)
        refine Gives.bind (Q := Mapping.Readable depth) ?_ fun read readable => ?_
        · refine Gives.foldlM (fun read entry readable => ?_) entries
            ⟨List.Pairwise.nil, by simp, by simp⟩
          refine Gives.bind (each _ _ _) fun key hkey => ?_
          cases present : Mapping.contains key read with
          | true => exact Gives.bind (Q := fun _ => False) (Gives.throw _) fun _ h => h.elim
          | false =>
            exact Gives.bind (each _ _ _) fun v hv => Gives.pure (readable.concat hkey hv present)
        · refine Gives.pure ?_
          dsimp only
          split
          · exact .tagged readable.map
          · exact readable.map
    | «alias» anchor => exact Gives.throw _
    | cut => exact Gives.throw _

end Document

theorem readable_ofString {text : String} {v : Value} (h : Value.ofString text = .ok v) :
    v.Readable maxDepth := by
  rw [Value.ofString] at h
  cases hr : ((Document.ofString text).value maxDepth false .root
    (Document.ofString text).root).run 0 with
  | error e => simp only [hr] at h; cases h
  | ok r =>
    have readable := Document.gives_value _ maxDepth false .root _ 0 r.1 r.2 hr
    cases hf : (Document.ofString text).failure with
    | some e => simp only [hr, hf] at h; cases h
    | none =>
      cases hm : (Document.ofString text).more with
      | true => simp only [hr, hf, hm] at h; cases h
      | false =>
        simp only [hr, hf, hm] at h
        cases h
        exact readable

theorem wellKeyed_ofString {text : String} {v : Value} (h : Value.ofString text = .ok v) :
    v.WellKeyed :=
  (readable_ofString h).wellKeyed

end Questionnaire.Yaml
