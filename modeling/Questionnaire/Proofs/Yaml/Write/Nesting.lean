import Questionnaire.Yaml.Write.Nesting

/-!
Which values without tags can be written. The start of a mapping of one entry is held back, and is
lost if its key is another such mapping; every other start is written. So the steps of a value have
as many ends of mappings too many as starts are lost (`count_steps`), and the value can be written
exactly when none is (`fault?_eq_none_iff`).
-/
namespace Questionnaire.Yaml

/-- Is this a mapping of one entry? -/
def Value.isSingle : Value → Bool
  | .map [_] => true
  | _ => false

/-- The loss of a mapping of one entry whose key is such a mapping. -/
def lossOf : List (Value × Value) → Nat
  | [(k, _)] => if k.isSingle then 1 else 0
  | _ => 0

mutual

/-- The number of mappings of one entry, anywhere in a value, whose key is a mapping of one entry. -/
def Value.lostStarts : Value → Nat
  | .seq items => lostItems items
  | .map entries => lossOf entries + lostEntries entries
  | .tagged _ v => v.lostStarts
  | _ => 0

def lostItems : List Value → Nat
  | [] => 0
  | v :: vs => v.lostStarts + lostItems vs

def lostEntries : List (Value × Value) → Nat
  | [] => 0
  | (k, v) :: es => k.lostStarts + v.lostStarts + lostEntries es

end

mutual

/-- Is there no tag anywhere in a value? -/
def Value.isUntagged : Value → Bool
  | .seq items => untaggedItems items
  | .map entries => untaggedEntries entries
  | .tagged .. => false
  | _ => true

def untaggedItems : List Value → Bool
  | [] => true
  | v :: vs => v.isUntagged && untaggedItems vs

def untaggedEntries : List (Value × Value) → Bool
  | [] => true
  | (k, v) :: es => k.isUntagged && v.isUntagged && untaggedEntries es

end

namespace Write

/-- A mapping with other than one entry writes what is held back and its own start. -/
theorem steps_map {held : Held} {es : List (Value × Value)} (several : es.length ≠ 1) :
    steps held (.map es) = held.release ++ .mapStart :: entrySteps es ++ [.mapEnd] := by
  match es, several with
  | [], _ => rw [steps]; simp
  | _ :: _ :: _, _ => rw [steps]; simp

/-- What is held back is written in front of a value, unless this holds back its own start. -/
theorem steps_start {v : Value} (untagged : v.isUntagged) :
    steps .start v = if v.isSingle then steps .nothing v else .mapStart :: steps .nothing v := by
  cases v with
  | map es =>
    match es with
    | [] => simp [steps_map, Value.isSingle, Held.release]
    | [(k, v)] => simp [steps, Value.isSingle]
    | _ :: _ :: _ => simp [steps_map, Value.isSingle, Held.release]
  | tagged tag v => cases untagged
  | _ => simp [steps, Value.isSingle, Held.release]

mutual

/-- Where nothing is lost a value completes one node, whatever is open around it. -/
theorem misfit_steps {v : Value} (untagged : v.isUntagged) (kept : v.lostStarts = 0)
    (os : List Open) (ss : List Step) :
    misfit os (steps .nothing v ++ ss) = misfit (Open.fill os) ss := by
  match v with
  | .seq items =>
    simp only [steps, Held.release, List.nil_append, List.cons_append, List.append_assoc, misfit]
    rw [misfit_itemSteps untagged kept]
    simp only [misfit]
  | .map [(k, v)] =>
    rw [Value.isUntagged, untaggedEntries, Bool.and_eq_true, Bool.and_eq_true] at untagged
    rw [Value.lostStarts, lostEntries, lossOf] at kept
    obtain ⟨⟨untaggedK, untaggedV⟩, _⟩ := untagged
    have keptK : k.lostStarts = 0 := by omega
    have keptV : v.lostStarts = 0 := by omega
    have single : k.isSingle = false := by
      cases h : k.isSingle with
      | false => rfl
      | true => simp [h] at kept
    simp only [steps, reduceCtorEq, if_false, steps_start untaggedK, single, List.append_assoc,
      List.cons_append, misfit, Bool.false_eq_true]
    rw [misfit_steps untaggedK keptK, misfit_steps untaggedV keptV]
    simp only [Open.fill, List.nil_append, misfit]
  | .map [] => simp [steps_map, Held.release, misfit, entrySteps]
  | .map (e :: f :: es) =>
    rw [steps_map (by simp)]
    simp only [Held.release, List.nil_append, List.cons_append, List.append_assoc, misfit]
    rw [misfit_entrySteps untagged (by simpa [Value.lostStarts, lossOf] using kept)]
    simp only [misfit]
  | .tagged .. => cases untagged
  | .null | .bool _ | .num _ | .str _ => simp [steps, Held.release, misfit]

theorem misfit_itemSteps {vs : List Value} (untagged : untaggedItems vs) (kept : lostItems vs = 0)
    (os : List Open) (ss : List Step) :
    misfit (.seq :: os) (itemSteps vs ++ ss) = misfit (.seq :: os) ss := by
  match vs with
  | [] => rfl
  | v :: vs =>
    rw [untaggedItems, Bool.and_eq_true] at untagged
    rw [lostItems, Nat.add_eq_zero_iff] at kept
    rw [itemSteps, List.append_assoc, misfit_steps untagged.1 kept.1]
    exact misfit_itemSteps untagged.2 kept.2 os ss

theorem misfit_entrySteps {es : List (Value × Value)} (untagged : untaggedEntries es)
    (kept : lostEntries es = 0) (os : List Open) (ss : List Step) :
    misfit (.key :: os) (entrySteps es ++ ss) = misfit (.key :: os) ss := by
  match es with
  | [] => rfl
  | (k, v) :: es =>
    rw [untaggedEntries, Bool.and_eq_true, Bool.and_eq_true] at untagged
    rw [lostEntries, Nat.add_eq_zero_iff, Nat.add_eq_zero_iff] at kept
    rw [entrySteps, List.append_assoc, List.append_assoc, misfit_steps untagged.1.1 kept.1.1,
      misfit_steps untagged.1.2 kept.1.2]
    exact misfit_entrySteps untagged.2 kept.2 os ss

end

mutual

/-- Each lost start leaves an end too many. -/
theorem count_steps {v : Value} (untagged : v.isUntagged) :
    (steps .nothing v).count .mapEnd = (steps .nothing v).count .mapStart + v.lostStarts := by
  match v with
  | .seq items =>
    have inner := count_itemSteps untagged
    simp only [steps, Held.release, Value.lostStarts, List.count_cons, List.count_append]
    simp
    omega
  | .map [(k, v)] =>
    rw [Value.isUntagged, untaggedEntries, Bool.and_eq_true, Bool.and_eq_true] at untagged
    obtain ⟨⟨untaggedK, untaggedV⟩, _⟩ := untagged
    have key := count_steps untaggedK
    have value := count_steps untaggedV
    simp only [steps, reduceCtorEq, if_false, steps_start untaggedK, Value.lostStarts, lossOf,
      lostEntries, List.count_append, List.count_cons, List.count_nil]
    cases k.isSingle <;> simp <;> omega
  | .map [] => simp [steps_map, Held.release, entrySteps, Value.lostStarts, lossOf, lostEntries]
  | .map (e :: f :: es) =>
    have inner := @count_entrySteps (e :: f :: es) untagged
    rw [steps_map (by simp)]
    simp only [Held.release, Value.lostStarts, lossOf, List.count_cons, List.count_append]
    simp
    omega
  | .tagged .. => cases untagged
  | .null | .bool _ | .num _ | .str _ => simp [steps, Held.release, Value.lostStarts]

theorem count_itemSteps {vs : List Value} (untagged : untaggedItems vs) :
    (itemSteps vs).count .mapEnd = (itemSteps vs).count .mapStart + lostItems vs := by
  match vs with
  | [] => rfl
  | v :: vs =>
    rw [untaggedItems, Bool.and_eq_true] at untagged
    have first := count_steps untagged.1
    have rest := count_itemSteps untagged.2
    rw [itemSteps, List.count_append, List.count_append, lostItems]
    omega

theorem count_entrySteps {es : List (Value × Value)} (untagged : untaggedEntries es) :
    (entrySteps es).count .mapEnd = (entrySteps es).count .mapStart + lostEntries es := by
  match es with
  | [] => rfl
  | (k, v) :: es =>
    rw [untaggedEntries, Bool.and_eq_true, Bool.and_eq_true] at untagged
    have key := count_steps untagged.1.1
    have value := count_steps untagged.1.2
    have rest := count_entrySteps untagged.2
    rw [entrySteps]
    simp only [List.count_append, lostEntries]
    omega

end

/-- The number of open mappings. -/
def Open.mappings (os : List Open) : Nat := os.countP (· ≠ .seq)

theorem Open.mappings_fill (os : List Open) :
    Open.mappings (Open.fill os) = Open.mappings os := by
  match os with
  | [] | .seq :: _ | .key :: _ | .value :: _ => rfl

/-- Steps that fit close no more mappings than are opened before. -/
theorem count_of_misfit {os : List Open} {ss : List Step} (fits : misfit os ss = none) :
    ss.count .mapEnd ≤ ss.count .mapStart + Open.mappings os := by
  induction ss generalizing os with
  | nil => simp
  | cons s ss ih =>
    cases s with
    | leaf =>
      have fit : misfit (Open.fill os) ss = none := by simpa only [misfit] using fits
      have rest := ih fit
      rw [Open.mappings_fill] at rest
      simpa using rest
    | seqStart =>
      have fit : misfit (.seq :: os) ss = none := by simpa only [misfit] using fits
      have rest := ih fit
      simpa [Open.mappings] using rest
    | mapStart =>
      have fit : misfit (.key :: os) ss = none := by simpa only [misfit] using fits
      have rest := ih fit
      simp [Open.mappings] at rest ⊢
      omega
    | secondTag => cases os <;> simp [misfit] at fits
    | seqEnd =>
      match os with
      | .seq :: os =>
        have fit : misfit (Open.fill os) ss = none := by simpa only [misfit] using fits
        have rest := ih fit
        rw [Open.mappings_fill] at rest
        simpa [Open.mappings] using rest
      | [] | .key :: _ | .value :: _ => simp [misfit] at fits
    | mapEnd =>
      match os with
      | .key :: os =>
        have fit : misfit (Open.fill os) ss = none := by simpa only [misfit] using fits
        have rest := ih fit
        rw [Open.mappings_fill] at rest
        simp [Open.mappings] at rest ⊢
        omega
      | [] | .seq :: _ | .value :: _ => simp [misfit] at fits

/-- A value without tags can be written exactly when no mapping of one entry has such a mapping as
its key. -/
theorem fault?_eq_none_iff {v : Value} (untagged : v.isUntagged) :
    fault? v = none ↔ v.lostStarts = 0 := by
  constructor
  · intro fits
    have closed := count_of_misfit fits
    rw [count_steps untagged] at closed
    have none : Open.mappings [] = 0 := rfl
    omega
  · intro kept
    have whole := misfit_steps untagged kept [] []
    rw [List.append_nil] at whole
    exact whole

end Write
end Questionnaire.Yaml
