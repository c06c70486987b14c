import Questionnaire.Yaml.Value

/-!
Equality of values as terms is decidable. It is finer than `Value.same`: the order of mappings
counts, and so does the sign of a zero.
-/
namespace Questionnaire.Yaml

mutual

def Value.alike : Value → Value → Bool
  | .null, .null => true
  | .bool a, .bool b => a == b
  | .num a, .num b => a == b
  | .str a, .str b => a == b
  | .seq xs, .seq ys => alikeItems xs ys
  | .map es, .map fs => alikeEntries es fs
  | .tagged s v, .tagged t w => s == t && Value.alike v w
  | _, _ => false

def alikeItems : List Value → List Value → Bool
  | [], [] => true
  | x :: xs, y :: ys => Value.alike x y && alikeItems xs ys
  | _, _ => false

def alikeEntries : List (Value × Value) → List (Value × Value) → Bool
  | [], [] => true
  | (k, v) :: es, (l, w) :: fs => Value.alike k l && (Value.alike v w && alikeEntries es fs)
  | _, _ => false

end

mutual

theorem Value.alike_iff (v w : Value) : v.alike w ↔ v = w := by
  cases v with
  | null => cases w <;> simp [Value.alike]
  | bool a => cases w <;> simp [Value.alike]
  | num a => cases w <;> simp [Value.alike]
  | str a => cases w <;> simp [Value.alike]
  | seq xs => cases w <;> simp [Value.alike, alikeItems_iff xs]
  | map es => cases w <;> simp [Value.alike, alikeEntries_iff es]
  | tagged s v => cases w <;> simp [Value.alike, Value.alike_iff v]

theorem alikeItems_iff (xs ys : List Value) : alikeItems xs ys ↔ xs = ys := by
  cases xs with
  | nil => cases ys <;> simp [alikeItems]
  | cons x xs => cases ys <;> simp [alikeItems, Value.alike_iff x, alikeItems_iff xs]

theorem alikeEntries_iff (es fs : List (Value × Value)) : alikeEntries es fs ↔ es = fs := by
  cases es with
  | nil => cases fs <;> simp [alikeEntries]
  | cons e es =>
    obtain ⟨k, v⟩ := e
    cases fs with
    | nil => simp [alikeEntries]
    | cons f fs =>
      obtain ⟨l, w⟩ := f
      simp [alikeEntries, Value.alike_iff k, Value.alike_iff v, alikeEntries_iff es, and_assoc]

end

instance : DecidableEq Value := fun v w => decidable_of_iff (v.alike w) (Value.alike_iff v w)

end Questionnaire.Yaml
