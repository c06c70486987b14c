import Questionnaire.Text.Digits

/-!
Digits read back: the digits of a number in a base, in letters of either case and with zeros in
front, write this number. In base ten a number is written by decimal digits and by nothing else
(`natOfDigits?_eq_some`).
-/
namespace Questionnaire

/-- One more digit behind a number. -/
def nextDigit (base : Nat) (n : Option Nat) (c : Char) : Option Nat :=
  return (← n) * base + (← digit? base c)

variable {base : Nat}

theorem natOfDigits?_eq {cs : List Char} (nonempty : cs ≠ []) :
    natOfDigits? base cs = cs.foldl (nextDigit base) (some 0) := by
  cases cs with
  | nil => exact absurd rfl nonempty
  | cons c cs => rfl

theorem natOfDigits?_concat {cs : List Char} (nonempty : cs ≠ []) (c : Char) :
    natOfDigits? base (cs ++ [c]) = nextDigit base (natOfDigits? base cs) c := by
  have longer : cs ++ [c] ≠ [] := by simp
  rw [natOfDigits?_eq longer, natOfDigits?_eq nonempty, List.foldl_append]
  rfl

theorem natOfDigits?_singleton (c : Char) : natOfDigits? base [c] = digit? base c := by
  rw [natOfDigits?_eq (List.cons_ne_nil c [])]
  cases h : digit? base c <;> simp [nextDigit, h]

theorem natOfDigits?_zeros (positive : 0 < base) (k : Nat) {cs : List Char} (nonempty : cs ≠ []) :
    natOfDigits? base (List.replicate k '0' ++ cs) = natOfDigits? base cs := by
  have zero : digit? base '0' = some 0 := by simp [digit?, positive]
  have still : ∀ k, (List.replicate k '0').foldl (nextDigit base) (some 0) = some 0 := by
    intro k
    induction k with
    | zero => rfl
    | succ k ih =>
      rw [List.replicate_succ, List.foldl_cons]
      simpa [nextDigit, zero] using ih
  have longer : List.replicate k '0' ++ cs ≠ [] := by simp [nonempty]
  rw [natOfDigits?_eq longer, natOfDigits?_eq nonempty, List.foldl_append, still]

/-- Digits that are written in letters of a case. -/
theorem natOfDigits?_toDigits (large : 1 < base) {f : Char → Char}
    (reads : ∀ d < base, digit? base (f (Nat.digitChar d)) = some d) (n : Nat) :
    natOfDigits? base ((Nat.toDigits base n).map f) = some n := by
  induction n using Nat.strongRecOn with
  | ind n ih =>
    by_cases small : n < base
    · rw [Nat.toDigits_of_lt_base small, List.map_singleton, natOfDigits?_singleton, reads n small]
    · have less : n / base < n := Nat.div_lt_self (by omega) large
      have digit : n % base < base := Nat.mod_lt _ (by omega)
      have filled : (Nat.toDigits base (n / base)).map f ≠ [] := by
        simp [Nat.toDigits_ne_nil]
      rw [Nat.toDigits_of_base_le large (by omega), List.map_append, List.map_singleton,
        natOfDigits?_concat filled, ih _ less, nextDigit, reads _ digit]
      simp [Nat.div_add_mod']

theorem natOfDigits?_decimal (n : Nat) : natOfDigits? 10 (Nat.toDigits 10 n) = some n := by
  have digits := natOfDigits?_toDigits (show 1 < 10 by decide) (f := id) (by decide) n
  rwa [List.map_id] at digits

theorem exists_digit_of_mem_toDigits (large : 1 < base) {n : Nat} {c : Char}
    (h : c ∈ Nat.toDigits base n) : ∃ d < base, Nat.digitChar d = c := by
  induction n using Nat.strongRecOn with
  | ind n ih =>
    by_cases small : n < base
    · rw [Nat.toDigits_of_lt_base small, List.mem_singleton] at h
      exact ⟨n, small, h.symm⟩
    · rw [Nat.toDigits_of_base_le large (by omega), List.mem_append, List.mem_singleton] at h
      rcases h with h | rfl
      · exact ih _ (Nat.div_lt_self (by omega) large) h
      · exact ⟨n % base, Nat.mod_lt _ (by omega), rfl⟩

/-! Base ten. -/

theorem isDigit_iff (c : Char) : c.isDigit ↔ '0' ≤ c ∧ c ≤ '9' := by
  rw [Char.isDigit, Bool.and_eq_true, decide_eq_true_eq, decide_eq_true_eq]
  rfl

theorem digit?_decimal (c : Char) :
    digit? 10 c = if c.isDigit then some (c.toNat - '0'.toNat) else none := by
  rw [digit?]
  by_cases digit : c.isDigit
  · have range := (isDigit_iff c).mp digit
    have last : c.toNat ≤ 57 := range.2
    have small : c.toNat - 48 < 10 := by omega
    simp [range, digit, small]
  · have range := mt (isDigit_iff c).mpr digit
    rw [if_neg range, if_neg digit]
    -- Letters stand for ten and more.
    split
    · simp
    · split <;> simp

@[simp]
theorem foldl_nextDigit_none (cs : List Char) : cs.foldl (nextDigit base) none = none := by
  induction cs with
  | nil => rfl
  | cons c cs ih => exact ih

/-- Digits behind a number, from the left to the right. -/
theorem foldl_nextDigit_decimal (cs : List Char) (n : Nat) :
    cs.foldl (nextDigit 10) (some n) =
      if cs.all Char.isDigit then some (Nat.ofDigitChars 10 cs n) else none := by
  induction cs generalizing n with
  | nil => rfl
  | cons c cs ih =>
    rw [List.foldl_cons, List.all_cons]
    by_cases digit : c.isDigit
    · have next : nextDigit 10 (some n) c = some (10 * n + (c.toNat - '0'.toNat)) := by
        rw [nextDigit, digit?_decimal, if_pos digit, Nat.mul_comm]
        rfl
      rw [next, ih, Nat.ofDigitChars_cons, digit, Bool.true_and]
    · have stop : nextDigit 10 (some n) c = none := by
        rw [nextDigit, digit?_decimal, if_neg digit]
        rfl
      rw [stop, foldl_nextDigit_none]
      simp [digit]

/-- A number is written by one or more decimal digits. -/
theorem natOfDigits?_eq_some {cs : List Char} {n : Nat} : natOfDigits? 10 cs = some n ↔
    cs ≠ [] ∧ (∀ c ∈ cs, c.isDigit) ∧ Nat.ofDigitChars 10 cs 0 = n := by
  by_cases empty : cs = []
  · simp [empty, natOfDigits?]
  · rw [natOfDigits?_eq empty, foldl_nextDigit_decimal]
    simp [empty]

end Questionnaire
