import Mathlib.Tactic.Linarith
import Mathlib.Tactic.Ring
import Questionnaire.Decimal.Shortest

/-!
Reading a decimal undoes writing it: a fraction between the midpoints to the neighbours of a double
rounds to this double (`ofRatio_of_rounds`), the shortest digits are such a fraction
(`shortest_rounds`), and rounding depends on the value of a fraction only.
-/
namespace Questionnaire

/-- Rounding to the nearest integer, in terms of the two midpoints. -/
theorem roundHalfEven_eq {num den m : Nat} (positive : 0 < den)
    (low : 2 * m * den ≤ 2 * num + den) (high : 2 * num ≤ (2 * m + 1) * den)
    (odd : m % 2 = 1 → 2 * m * den < 2 * num + den ∧ 2 * num < (2 * m + 1) * den) :
    roundHalfEven num den = m := by
  have split : den * (num / den) + num % den = num := Nat.div_add_mod num den
  have rest : num % den < den := Nat.mod_lt _ positive
  rw [roundHalfEven]
  generalize num / den = q at *
  generalize num % den = r at *
  have above : q ≤ m := by
    by_contra h
    have : den * (m + 1) ≤ den * q := Nat.mul_le_mul_left den (by omega)
    nlinarith
  have below : m ≤ q + 1 := by
    by_contra h
    have : den * (q + 2) ≤ den * m := Nat.mul_le_mul_left den (by omega)
    nlinarith
  rcases Nat.lt_or_ge q m with less | same
  · -- The quotient is one less, and the rest is half of the denominator or more.
    obtain rfl : m = q + 1 := by omega
    have half : den ≤ 2 * r := by nlinarith
    rcases Nat.lt_or_ge den (2 * r) with more | tie
    · rw [if_pos (Or.inl more)]
    · have half : 2 * r = den := by omega
      by_cases even : q % 2 = 1
      · rw [if_pos (Or.inr ⟨half, even⟩)]
      · have strict := (odd (by omega)).1
        nlinarith
  · obtain rfl : q = m := by omega
    have half : 2 * r ≤ den := by nlinarith
    by_cases up : den < 2 * r ∨ (2 * r = den ∧ q % 2 = 1)
    · rcases up with more | ⟨tie, parity⟩
      · omega
      · have strict := (odd parity).2
        nlinarith
    · rw [if_neg up]

theorem pow_add_bits (e k : Nat) : Nat.pow 2 (e + k) = Nat.pow 2 k * Nat.pow 2 e := by
  rw [Nat.mul_comm]
  exact Nat.pow_add 2 e k

theorem mul_pow_up (x e k : Nat) (h : k = e + 2) : x * Nat.pow 2 k = 4 * (x * Nat.pow 2 e) := by
  rw [h, pow_add_bits, Nat.mul_left_comm]

theorem pow_pos_two (e : Nat) : 0 < Nat.pow 2 e := Nat.pow_pos (by decide)

/-- A fraction in units of the least double lies between the midpoints to the neighbours of a
double, or on one of them if the mantissa is even. The bounds are those of `Scientific.roundsTo`. -/
structure Rounds (m e num den : Nat) : Prop where
  low : (if m = 0x10000000000000 ∧ e ≠ 0 then 4 * m - 1 else 4 * m - 2) * Nat.pow 2 e * den ≤ 4 * num
  high : 4 * num ≤ (4 * m + 2) * Nat.pow 2 e * den
  odd : m % 2 = 1 → (4 * m - 2) * Nat.pow 2 e * den < 4 * num ∧
    4 * num < (4 * m + 2) * Nat.pow 2 e * den

/-- A decimal that rounds to a double. -/
def Stands (m e q : Nat) (g : Int) : Prop :=
  Rounds m e (q * (Scientific.unit g).1 * Nat.pow 2 1074) (Scientific.unit g).2

theorem stands_of_roundsTo {m e q : Nat} {g : Int} (h : Scientific.roundsTo m e q g) :
    Stands m e q g := by
  have scale (x : Nat) := mul_pow_up x 1074 1076 rfl
  rw [Scientific.roundsTo] at h
  rw [Stands]
  generalize Scientific.unit g = u at *
  obtain ⟨n, d⟩ := u
  simp only [scale] at h ⊢
  split at h
  · rename_i even
    rw [Bool.and_eq_true, decide_eq_true_eq, decide_eq_true_eq] at h
    exact ⟨h.1, h.2, fun odd => by omega⟩
  · rename_i odd
    rw [Bool.and_eq_true, decide_eq_true_eq, decide_eq_true_eq] at h
    refine ⟨Nat.le_of_lt h.1, Nat.le_of_lt h.2, fun _ => ⟨?_, h.2⟩⟩
    have noPower : ¬ (m = 0x10000000000000 ∧ e ≠ 0) := by
      rintro ⟨rfl, _⟩
      exact odd (by decide)
    rw [if_neg noPower] at h
    exact h.1

section
variable {m e num den : Nat} (positive : 0 < den) (canonical : Canonical m e)
  (rounds : Rounds m e num den)
include positive canonical rounds

theorem Rounds.quotient_lt : num / den < Nat.pow 2 (e + 53) := by
  have high := rounds.high
  have size := canonical.1
  have bits : Nat.pow 2 53 = 0x20000000000000 := rfl
  have unit : 0 < Nat.pow 2 e * den := Nat.mul_pos (pow_pos_two e) positive
  rw [Nat.div_lt_iff_lt_mul positive, pow_add_bits, bits, Nat.mul_assoc]
  rw [Nat.mul_assoc] at high
  generalize Nat.pow 2 e * den = u at *
  have : (4 * m + 2) * u ≤ (4 * 0x20000000000000 - 2) * u := Nat.mul_le_mul_right u (by omega)
  omega

/-- Short of a power of two below it, the double has the exponent of the fraction. -/
theorem Rounds.le_quotient (normal : e ≠ 0)
    (above : m = 0x10000000000000 → m * Nat.pow 2 e * den ≤ num) :
    Nat.pow 2 (e + 52) ≤ num / den := by
  have low := rounds.low
  have size := canonical.2.2.resolve_left normal
  have bits : Nat.pow 2 52 = 0x10000000000000 := rfl
  rw [Nat.le_div_iff_mul_le positive, pow_add_bits, bits]
  by_cases power : m = 0x10000000000000
  · have := above power
    rwa [power] at this
  · have unit : 0 < Nat.pow 2 e * den := Nat.mul_pos (pow_pos_two e) positive
    rw [if_neg fun h => power h.1, Nat.mul_assoc] at low
    rw [Nat.mul_assoc]
    generalize Nat.pow 2 e * den = u at *
    have : (4 * 0x10000000000000 + 2) * u ≤ (4 * m - 2) * u := Nat.mul_le_mul_right u (by omega)
    omega

omit canonical in
/-- The mantissa is the fraction rounded to the exponent. -/
theorem Rounds.mantissa : roundHalfEven num (den * Nat.pow 2 e) = m := by
  have low := rounds.low
  have high := rounds.high
  have odd := rounds.odd
  have unit : 0 < den * Nat.pow 2 e := Nat.mul_pos positive (pow_pos_two e)
  have same (k : Nat) : k * Nat.pow 2 e * den = k * (den * Nat.pow 2 e) := by
    rw [Nat.mul_assoc, Nat.mul_comm (Nat.pow 2 e)]
  simp only [same] at low high odd
  generalize den * Nat.pow 2 e = u at *
  have least : (4 * m - 2) * u ≤ 4 * num := by
    refine Nat.le_trans (Nat.mul_le_mul_right u ?_) low
    split <;> omega
  have lower : (4 * m - 2) * u = 4 * m * u - 2 * u := Nat.sub_mul _ _ _
  have upper : (4 * m + 2) * u = 4 * m * u + 2 * u := Nat.add_mul _ _ _
  have twice : 4 * m * u = 2 * (2 * m * u) := by ring
  have whole : (2 * m + 1) * u = 2 * m * u + u := by ring
  refine roundHalfEven_eq unit ?_ ?_ ?_
  · omega
  · omega
  · intro h
    have strict := odd h
    omega

omit canonical in
/-- Just below a power of two the fraction has one more bit and is rounded up. -/
theorem Rounds.carry {k : Nat} (next : e = k + 1) (power : m = 0x10000000000000)
    (below : num < m * Nat.pow 2 e * den) :
    roundHalfEven num (den * Nat.pow 2 k) = 0x20000000000000 ∧
      Nat.pow 2 (k + 52) ≤ num / den ∧ num / den < Nat.pow 2 (k + 53) := by
  have low := rounds.low
  have unit : 0 < den * Nat.pow 2 k := Nat.mul_pos positive (pow_pos_two k)
  have same (a : Nat) : a * Nat.pow 2 e * den = 2 * a * (den * Nat.pow 2 k) := by
    rw [next, pow_add_bits k 1]
    show a * (2 * Nat.pow 2 k) * den = _
    ring
  have bits : Nat.pow 2 52 = 0x10000000000000 ∧ Nat.pow 2 53 = 0x20000000000000 := ⟨rfl, rfl⟩
  rw [if_pos ⟨power, by omega⟩] at low
  rw [Nat.le_div_iff_mul_le positive, Nat.div_lt_iff_lt_mul positive, pow_add_bits, pow_add_bits,
    bits.1, bits.2, Nat.mul_assoc, Nat.mul_assoc, Nat.mul_comm (Nat.pow 2 k) den]
  rw [same, power] at low below
  generalize den * Nat.pow 2 k = u at *
  refine ⟨roundHalfEven_eq unit ?_ ?_ ?_, ?_, ?_⟩ <;> omega

end

theorem ofRatio_of_rounds {m e num den : Nat} (positive : 0 < den) (canonical : Canonical m e)
    (rounds : Rounds m e (num * Nat.pow 2 1074) den) (negative : Bool) :
    Binary64.ofRatio negative num den = .finite negative m e canonical := by
  rw [Binary64.ofRatio]
  generalize num * Nat.pow 2 1074 = x at *
  have small := rounds.quotient_lt positive canonical
  have mantissa := rounds.mantissa positive
  have parts : Binary64.ofParts negative m e = .finite negative m e canonical := by
    rw [Binary64.ofParts, dif_pos canonical]
  have size := canonical.1
  have exponent_of {k : Nat} (low : k ≠ 0 → Nat.pow 2 (k + 52) ≤ x / den)
      (high : x / den < Nat.pow 2 (k + 53)) : (x / den).log2 - 52 = k := by
    by_cases zero : x / den = 0
    · rw [zero] at low ⊢
      by_contra other
      have none := low fun h => other (by rw [h]; decide)
      exact absurd (pow_pos_two (k + 52)) (Nat.not_lt.mpr none)
    · have above : (x / den).log2 < k + 53 := (Nat.log2_lt zero).mpr high
      by_cases first : k = 0
      · omega
      · have below : k + 52 ≤ (x / den).log2 := (Nat.le_log2 zero).mpr (low first)
        omega
  by_cases carry : e ≠ 0 ∧ m = 0x10000000000000 ∧ x < m * Nat.pow 2 e * den
  · obtain ⟨normal, power, below⟩ := carry
    obtain ⟨k, next⟩ := Nat.exists_eq_succ_of_ne_zero normal
    obtain ⟨rounded, low, high⟩ := rounds.carry positive next power below
    have exponent := exponent_of (fun _ => low) high
    simp only [exponent, rounded, if_true]
    rw [← parts, power, next]
  · have exponent := exponent_of (k := e) (fun normal => rounds.le_quotient positive canonical normal
      fun power => by
        by_contra h
        exact carry ⟨normal, power, by omega⟩) small
    simp only [exponent, mantissa]
    rw [if_neg (by omega), parts]

/-- Rounding depends on the value of a fraction. -/
theorem Rounds.of_ratio {m e num den num' den' : Nat} (rounds : Rounds m e num den)
    (positive : 0 < den) (positive' : 0 < den') (same : num * den' = num' * den) :
    Rounds m e num' den' := by
  have low (a : Nat) (h : a * den ≤ 4 * num) : a * den' ≤ 4 * num' := by
    refine Nat.le_of_mul_le_mul_right ?_ positive
    nlinarith
  have high (a : Nat) (h : 4 * num ≤ a * den) : 4 * num' ≤ a * den' := by
    refine Nat.le_of_mul_le_mul_right ?_ positive
    nlinarith
  have below (a : Nat) (h : a * den < 4 * num) : a * den' < 4 * num' := by
    refine Nat.lt_of_mul_lt_mul_right (a := den) ?_
    nlinarith
  have above (a : Nat) (h : 4 * num < a * den) : 4 * num' < a * den' := by
    refine Nat.lt_of_mul_lt_mul_right (a := den) ?_
    nlinarith
  exact ⟨low _ rounds.low, high _ rounds.high, fun odd =>
    ⟨below _ (rounds.odd odd).1, above _ (rounds.odd odd).2⟩⟩

namespace Scientific

theorem unit_pos (g : Int) : 0 < (unit g).1 ∧ 0 < (unit g).2 :=
  ⟨Nat.pow_pos (by decide), Nat.pow_pos (by decide)⟩

theorem unit_add (g : Int) (z : Nat) :
    Nat.pow 10 z * (unit g).1 * (unit (g + z)).2 = (unit (g + z)).1 * (unit g).2 := by
  have split (a b : Nat) : Nat.pow 10 a * Nat.pow 10 b = Nat.pow 10 (a + b) :=
    (Nat.pow_add 10 a b).symm
  rw [unit, unit, split, split, split]
  exact congrArg (Nat.pow 10) (by omega)

/-- Zeros at the end of the digits can be moved to the exponent and back. -/
theorem stands_scaled {m e q : Nat} {g : Int} (z : Nat) :
    Stands m e (q * Nat.pow 10 z) g ↔ Stands m e q (g + z) := by
  have same : q * Nat.pow 10 z * (unit g).1 * Nat.pow 2 1074 * (unit (g + z)).2 =
      q * (unit (g + z)).1 * Nat.pow 2 1074 * (unit g).2 := by
    calc q * Nat.pow 10 z * (unit g).1 * Nat.pow 2 1074 * (unit (g + z)).2
      _ = q * Nat.pow 2 1074 * (Nat.pow 10 z * (unit g).1 * (unit (g + z)).2) := by ring
      _ = q * Nat.pow 2 1074 * ((unit (g + z)).1 * (unit g).2) := by rw [unit_add]
      _ = q * (unit (g + z)).1 * Nat.pow 2 1074 * (unit g).2 := by ring
  exact ⟨fun h => Rounds.of_ratio h (unit_pos _).2 (unit_pos _).2 same,
    fun h => Rounds.of_ratio h (unit_pos _).2 (unit_pos _).2 same.symm⟩

/-- A point of a grid that stands for a double rounds to it. -/
theorem roundsTo_of_onGrid {m e : Nat} {g : Int} {s : Scientific} (h : onGrid m e g = some s) :
    roundsTo m e s.digits s.exponent := by
  rw [onGrid] at h
  generalize unit g = u at h
  obtain ⟨n, d⟩ := u
  simp only at h
  split at h
  · rename_i both
    rw [Bool.and_eq_true] at both
    obtain rfl := Option.some.inj h
    simp only
    split
    · exact both.2
    · exact both.1
  · split at h
    · rename_i below
      obtain rfl := Option.some.inj h
      exact below
    · split at h
      · rename_i above
        obtain rfl := Option.some.inj h
        exact above
      · cases h

/-- On a grid that is fine enough the point below the double rounds to it. -/
theorem roundsTo_floor {m e : Nat} {g : Int} (positive : 0 < m)
    (fine : 4 * ((unit g).1 * Nat.pow 2 1074) ≤ (unit g).2) :
    roundsTo m e (m * Nat.pow 2 e * (unit g).2 / ((unit g).1 * Nat.pow 2 1074)) g := by
  have scale (x : Nat) := mul_pow_up x 1074 1076 rfl
  have grid : 0 < (unit g).1 * Nat.pow 2 1074 := Nat.mul_pos (unit_pos g).1 (pow_pos_two _)
  have unit_ : 0 < Nat.pow 2 e := pow_pos_two e
  rw [roundsTo]
  generalize unit g = u at *
  obtain ⟨n, d⟩ := u
  simp only [scale, Nat.mul_assoc] at *
  generalize n * Nat.pow 2 1074 = den at *
  have wide : d ≤ Nat.pow 2 e * d := Nat.le_mul_of_pos_left d unit_
  generalize Nat.pow 2 e * d = x at *
  have split : den * (m * x / den) + m * x % den = m * x := Nat.div_add_mod _ _
  have rest : m * x % den < den := Nat.mod_lt _ grid
  generalize m * x / den = q at *
  generalize m * x % den = r at *
  have point : 4 * (q * den) + 4 * r = 4 * (m * x) := by nlinarith
  have above : (4 * m + 2) * x = 4 * (m * x) + 2 * x := by ring
  have below (a : Nat) (h : a ≤ 4 * m - 1) : a * x + x ≤ 4 * (m * x) := by
    have : (a + 1) * x ≤ 4 * m * x := Nat.mul_le_mul_right x (by omega)
    nlinarith
  have low := below (if m = 0x10000000000000 ∧ e ≠ 0 then 4 * m - 1 else 4 * m - 2)
    (by split <;> omega)
  generalize (if m = 0x10000000000000 ∧ e ≠ 0 then 4 * m - 1 else 4 * m - 2) = a at *
  split
  · rw [Bool.and_eq_true, decide_eq_true_eq, decide_eq_true_eq]
    omega
  · rw [Bool.and_eq_true, decide_eq_true_eq, decide_eq_true_eq]
    omega

/-- The finest grid has a point between the midpoints. -/
theorem onGrid_isSome {m e : Nat} (positive : 0 < m) : (onGrid m e (-351)).isSome := by
  have below := roundsTo_floor (e := e) (g := -351) positive (by decide +kernel)
  rw [onGrid]
  generalize roundsTo = rounds at *
  generalize unit (-351) = u at *
  obtain ⟨n, d⟩ := u
  simp only at below ⊢
  rw [below]
  split
  · rfl
  · rfl

theorem shortest_roundsTo {m e : Nat} (positive : 0 < m) :
    roundsTo m e (shortest m e).digits (shortest m e).exponent := by
  rw [shortest]
  cases found : (List.range 660).findSome? fun i : Nat => onGrid m e (308 - i) with
  | none =>
    have last := List.findSome?_eq_none_iff.mp found 659 (List.mem_range.mpr (by decide))
    have finest := onGrid_isSome (e := e) positive
    rw [show (-351 : Int) = 308 - (659 : Nat) by decide, last] at finest
    cases finest
  | some s =>
    obtain ⟨i, _, point⟩ := List.exists_of_findSome?_eq_some found
    exact roundsTo_of_onGrid point

theorem digits_pos {m e q : Nat} {g : Int} (positive : 0 < m) (h : roundsTo m e q g) : 0 < q := by
  have low := (stands_of_roundsTo h).low
  have wide : 0 < Nat.pow 2 e * (unit g).2 := Nat.mul_pos (pow_pos_two e) (unit_pos g).2
  refine Nat.pos_of_ne_zero fun zero => ?_
  rw [zero, Nat.zero_mul, Nat.zero_mul, Nat.mul_zero, Nat.mul_assoc, Nat.le_zero, Nat.mul_eq_zero]
    at low
  split at low <;> omega

end Scientific
section
variable {q : Nat} {g : Int} (positive : 0 < q)
include positive

/-- A decimal is at least the power of ten that its first digit stands for. -/
theorem pow_le_decimal {k : Nat} (h : k < (Nat.toDigits 10 q).length + g) :
    Nat.pow 10 k * (Scientific.unit g).2 ≤ q * (Scientific.unit g).1 := by
  obtain ⟨l, length⟩ : ∃ l, (Nat.toDigits 10 q).length = l + 1 :=
    Nat.exists_eq_succ_of_ne_zero (by simp [Nat.toDigits_ne_nil])
  have first : Nat.pow 10 l ≤ q := by
    by_cases single : l = 0
    · rw [single]
      exact positive
    · by_contra less
      have short := (Nat.length_toDigits_le_iff (b := 10) (by decide) (Nat.pos_of_ne_zero single)).mpr
        (Nat.not_le.mp less)
      omega
  have split (a b : Nat) : Nat.pow 10 (a + b) = Nat.pow 10 a * Nat.pow 10 b := Nat.pow_add 10 a b
  have mono {a b : Nat} (h : a ≤ b) : Nat.pow 10 a ≤ Nat.pow 10 b :=
    Nat.pow_le_pow_right (by decide) h
  rw [Scientific.unit]
  by_cases fraction : g < 0
  · have point : g.toNat = 0 := by omega
    rw [point, ← split]
    exact Nat.le_trans (mono (by omega)) (Nat.le_trans first (Nat.le_of_eq (Nat.mul_one q).symm))
  · have point : (-g).toNat = 0 := by omega
    rw [point]
    refine Nat.le_trans (mono (b := l + g.toNat) (by omega) |> Nat.le_trans (Nat.le_of_eq
      (Nat.mul_one _))) ?_
    rw [split]
    exact Nat.mul_le_mul_right _ first

omit positive in
/-- Zeros behind the point make a decimal small. -/
theorem decimal_le_pow {k : Nat} (h : (Nat.toDigits 10 q).length + g ≤ -k) :
    q * (Scientific.unit g).1 * Nat.pow 10 k ≤ (Scientific.unit g).2 := by
  have length : 0 < (Nat.toDigits 10 q).length :=
    List.length_pos_iff.mpr Nat.toDigits_ne_nil
  have digits := (Nat.length_toDigits_le_iff (n := q) (b := 10) (by decide) length).mp (Nat.le_refl _)
  have point : g.toNat = 0 := by omega
  have split (a b : Nat) : Nat.pow 10 (a + b) = Nat.pow 10 a * Nat.pow 10 b := Nat.pow_add 10 a b
  rw [Scientific.unit, point]
  have one : q * Nat.pow 10 0 = q := Nat.mul_one q
  rw [one]
  refine Nat.le_trans (Nat.mul_le_mul_right _ (Nat.le_of_lt digits)) ?_
  refine Nat.le_trans (Nat.le_of_eq (split _ k).symm) ?_
  exact Nat.pow_le_pow_right (by decide) (by omega)

variable {m e : Nat}
  (stands : Stands m e q g)
include stands

/-- Doubles have at most 400 digits before the point. -/
theorem Stands.magnitude_le (canonical : Canonical m e) :
    (Nat.toDigits 10 q).length + g ≤ 400 := by
  by_contra large
  have size : Nat.pow 10 400 * _ ≤ _ := pow_le_decimal positive (g := g) (by omega)
  have high := Rounds.high stands
  have denominator := (Scientific.unit_pos g).2
  have bound : (4 * m + 2) * Nat.pow 2 e ≤ Nat.pow 2 2100 :=
    Nat.le_trans (Nat.mul_le_mul (show 4 * m + 2 ≤ 0x80000000000000 by have := canonical.1; omega)
      (Nat.pow_le_pow_right (by decide) canonical.2.1)) (by decide +kernel)
  have range : Nat.pow 2 2100 < 4 * (Nat.pow 10 400 * Nat.pow 2 1074) := by decide +kernel
  generalize Nat.pow 10 400 = a, Nat.pow 2 1074 = t, Nat.pow 2 2100 = b at *
  generalize (Scientific.unit g).2 = d, q * (Scientific.unit g).1 = x at *
  have scaled : a * d * t ≤ x * t := Nat.mul_le_mul_right t size
  have limit : (4 * m + 2) * Nat.pow 2 e * d ≤ b * d := Nat.mul_le_mul_right d bound
  nlinarith

/-- Positive doubles have less than 400 zeros behind the point. -/
theorem Stands.le_magnitude (double : 0 < m) : -400 ≤ (Nat.toDigits 10 q).length + g := by
  by_contra small
  have size : _ * Nat.pow 10 400 ≤ _ := decimal_le_pow (q := q) (g := g) (k := 400) (by omega)
  have low := Rounds.low stands
  have least : 0 < Nat.pow 2 e := pow_pos_two e
  have value : 0 < q * (Scientific.unit g).1 := Nat.mul_pos positive (Scientific.unit_pos g).1
  have range : 2 * Nat.pow 2 1074 < Nat.pow 10 400 := by decide +kernel
  generalize Nat.pow 10 400 = a, Nat.pow 2 1074 = t at *
  generalize (Scientific.unit g).2 = d, q * (Scientific.unit g).1 = x at *
  have lower : 2 * d ≤ 4 * (x * t) := by
    refine Nat.le_trans (Nat.mul_le_mul_right d ?_) low
    have : 2 ≤ (if m = 0x10000000000000 ∧ e ≠ 0 then 4 * m - 1 else 4 * m - 2) := by split <;> omega
    exact Nat.le_trans this (Nat.le_mul_of_pos_right _ least)
  nlinarith

end

theorem ofDecimal_of_stands {m e q : Nat} {g : Int} (canonical : Canonical m e) (double : 0 < m)
    (stands : Stands m e q g) (positive : 0 < q) (negative : Bool) :
    Binary64.ofDecimal negative q g = .finite negative m e canonical := by
  have high := stands.magnitude_le positive canonical
  have low := stands.le_magnitude positive double
  have ratio := ofRatio_of_rounds (Scientific.unit_pos g).2 canonical stands negative
  rw [Binary64.ofDecimal, if_neg (by omega), if_neg (by omega)]
  split
  · rename_i whole
    have one : (-g).toNat = 0 := by omega
    rw [Scientific.unit, one] at ratio
    exact ratio
  · rename_i fraction
    have one : g.toNat = 0 := by omega
    rw [Scientific.unit, one] at ratio
    rw [← ratio]
    show _ = Binary64.ofRatio negative (q * 1) _
    rw [Nat.mul_one]

end Questionnaire
