import Questionnaire.Proofs.Decimal.Rounding
import Questionnaire.Proofs.Decimal.Text
import Questionnaire.Proofs.Text.Digits
import Questionnaire.Proofs.Yaml.Reading
import Questionnaire.Yaml.Write.Scalar

/-!
What is written plain resolves to the value it was written for: the words for null and the booleans,
the digits of integers, and the three layouts of a double, each of which is a decimal of the same
value (`resolvePlain_number`).
-/
namespace Questionnaire

/-! Digits. -/

/-- All characters are decimal digits. -/
def Digits (cs : List Char) : Prop := ∀ c ∈ cs, c.isDigit

theorem Digits.append {cs ds : List Char} (hcs : Digits cs) (hds : Digits ds) :
    Digits (cs ++ ds) := by
  intro c hc
  rcases List.mem_append.mp hc with hc | hc
  · exact hcs c hc
  · exact hds c hc

theorem digits_zeros (n : Nat) : Digits (List.replicate n '0') := by
  intro c hc
  rw [List.eq_of_mem_replicate hc]
  decide

theorem digit?_eq_none {c : Char} (h : c = '.' ∨ c = 'e' ∨ c = '-') : digit? 10 c = none := by
  rcases h with rfl | rfl | rfl <;> decide

/-- Digits are all there is to a number in digits. -/
theorem natOfDigits?_eq_none {cs : List Char} {c : Char} (h : c ∈ cs) (other : digit? 10 c = none) :
    natOfDigits? 10 cs = none := by
  cases written : natOfDigits? 10 cs with
  | none => rfl
  | some n =>
    obtain ⟨_, digits, _⟩ := natOfDigits?_eq_some.mp written
    rw [digit?_decimal, if_pos (digits c h)] at other
    cases other

theorem natOfDigits?_append_zeros {cs : List Char} {n : Nat} (nonempty : cs ≠ [])
    (h : natOfDigits? 10 cs = some n) (k : Nat) :
    natOfDigits? 10 (cs ++ List.replicate k '0') = some (n * Nat.pow 10 k) := by
  induction k with
  | zero => simpa using h
  | succ k ih =>
    have longer : cs ++ List.replicate k '0' ≠ [] := by simp [nonempty]
    have zero : digit? 10 '0' = some 0 := by decide
    rw [List.replicate_succ', ← List.append_assoc, natOfDigits?_concat longer, ih, nextDigit, zero]
    show some (n * Nat.pow 10 k * 10 + 0) = some (n * Nat.pow 10 (k + 1))
    rw [Nat.add_zero, Nat.mul_assoc]
    rfl

theorem digits_toDigits (n : Nat) : Digits (Nat.toDigits 10 n) :=
  fun _ hc => Nat.isDigit_of_mem_toDigits (by decide) (by decide) hc

/-- The first digit of a positive number is not zero. -/
theorem head?_toDigits {n : Nat} (positive : 0 < n) : (Nat.toDigits 10 n).head? ≠ some '0' := by
  induction n using Nat.strongRecOn with
  | ind n ih =>
    by_cases small : n < 10
    · have digits : ∀ d < 10, 0 < d → Nat.digitChar d ≠ '0' := by decide
      rw [Nat.toDigits_of_lt_base small]
      simpa using digits n small positive
    · have front := ih (n / 10) (by omega) (by omega)
      rw [Nat.toDigits_of_base_le (by decide) (by omega), List.head?_append]
      obtain ⟨c, cs, h⟩ := List.exists_cons_of_ne_nil (Nat.toDigits_ne_nil (n := n / 10) (b := 10))
      rw [h] at front ⊢
      exact front

/-- Digits `ds` that stand for `n`, with `k` zeros behind them taken off. -/
structure Significant (q : Nat) (ds : List Char) (k n : Nat) : Prop where
  nonempty : ds ≠ []
  digits : Digits ds
  value : natOfDigits? 10 ds = some n
  scale : q = n * Nat.pow 10 k

theorem significant {q : Nat} (positive : 0 < q) :
    let cs := Nat.toDigits 10 q
    let k := (cs.reverse.takeWhile (· == '0')).length
    ∃ n, Significant q (cs.take (cs.length - k)) k n := by
  intro cs k
  have zeros : cs.reverse.takeWhile (· == '0') = List.replicate k '0' :=
    List.eq_replicate_iff.mpr ⟨rfl, fun c hc =>
      beq_iff_eq.mp (List.all_eq_true.mp List.all_takeWhile c hc)⟩
  have split : cs = (cs.reverse.dropWhile (· == '0')).reverse ++ List.replicate k '0' := by
    rw [← List.reverse_inj, List.reverse_append, List.reverse_replicate, List.reverse_reverse,
      ← zeros, List.takeWhile_append_dropWhile]
  generalize (cs.reverse.dropWhile (· == '0')).reverse = ds at split
  clear_value k
  have front : cs.take (cs.length - k) = ds := by
    rw [split, List.length_append, List.length_replicate, Nat.add_sub_cancel, List.take_left]
  have all : natOfDigits? 10 (ds ++ List.replicate k '0') = some q := by
    rw [← split]
    exact natOfDigits?_decimal q
  have nonempty : ds ≠ [] := by
    rintro rfl
    have first : cs.head? ≠ some '0' := head?_toDigits positive
    have filled : cs ≠ [] := Nat.toDigits_ne_nil
    rw [split, List.nil_append] at first filled
    cases k with
    | zero => exact filled rfl
    | succ k => exact first rfl
  have digits : Digits ds := by
    intro c hc
    apply digits_toDigits q
    rw [show Nat.toDigits 10 q = _ from split]
    exact List.mem_append_left _ hc
  have value : natOfDigits? 10 ds = some (Nat.ofDigitChars 10 ds 0) :=
    natOfDigits?_eq_some.mpr ⟨nonempty, digits, rfl⟩
  have scaled := natOfDigits?_append_zeros nonempty value k
  rw [all] at scaled
  rw [front]
  exact ⟨_, nonempty, digits, value, Option.some.inj scaled⟩

/-! Decimals. -/

namespace Yaml

theorem span_digits {cs rest : List Char} (digits : Digits cs)
    (stop : ∀ c, rest.head? = some c → c.isDigit = false) :
    (cs ++ rest).takeWhile Char.isDigit = cs ∧ (cs ++ rest).dropWhile Char.isDigit = rest := by
  have none : rest.takeWhile Char.isDigit = [] ∧ rest.dropWhile Char.isDigit = rest := by
    cases rest with
    | nil => exact ⟨rfl, rfl⟩
    | cons c rest =>
      have other := stop c rfl
      constructor
      · rw [List.takeWhile_cons_of_neg (by simp [other])]
      · rw [List.dropWhile_cons_of_neg (by simp [other])]
  rw [List.takeWhile_append_of_pos digits, List.dropWhile_append_of_pos digits, none.1, none.2,
    List.append_nil]
  exact ⟨rfl, rfl⟩

/-- A decimal with a point. -/
theorem decimalOfText?_point {whole fraction rest : List Char} {n : Nat} {e : Int}
    (digits : Digits whole) (digits' : Digits fraction)
    (stop : ∀ c, rest.head? = some c → c.isDigit = false)
    (value : natOfDigits? 10 (whole ++ fraction) = some n)
    (exponent : exponentOfText? rest = some e)
    (negative : Bool) :
    decimalOfText? negative (whole ++ '.' :: (fraction ++ rest)) =
      some (.ofDecimal negative n (e - fraction.length)) := by
  have point : ∀ c, ('.' :: (fraction ++ rest)).head? = some c → c.isDigit = false := by
    intro c hc
    obtain rfl : '.' = c := by simpa using hc
    decide
  rw [decimalOfText?]
  simp only [span_digits digits point, span_digits digits' stop, value, exponent]
  rfl

/-- A decimal without a point. -/
theorem decimalOfText?_whole {whole rest : List Char} {n : Nat} {e : Int} (digits : Digits whole)
    (stop : ∀ c, rest.head? = some c → c.isDigit = false ∧ c ≠ '.')
    (value : natOfDigits? 10 whole = some n) (exponent : exponentOfText? rest = some e)
    (negative : Bool) :
    decimalOfText? negative (whole ++ rest) = some (.ofDecimal negative n e) := by
  have cut := span_digits digits fun c hc => (stop c hc).1
  rw [decimalOfText?]
  simp only [cut]
  split
  · exact absurd rfl (stop _ rfl).2
  · simp only [List.append_nil, value, exponent]
    show some (Binary64.ofDecimal negative n (e - 0)) = _
    rw [Int.sub_zero]

theorem toList_int (n : Int) : (toString n).toList =
    if n < 0 then '-' :: Nat.toDigits 10 (-n).toNat else Nat.toDigits 10 n.toNat := by
  rw [Int.toString_eq_repr, Int.repr_eq_if]
  by_cases negative : n < 0
  · rw [if_neg (by omega), if_pos negative, String.toList_append, Nat.toList_repr]
    rfl
  · rw [if_pos (by omega), if_neg negative, Nat.toList_repr]

/-- A number in digits starts with one, so it has no sign. -/
theorem exists_toDigits (n : Nat) : ∃ d ds, Nat.toDigits 10 n = d :: ds ∧ d.isDigit ∧ d ≠ '-' ∧
    d ≠ '+' := by
  obtain ⟨d, ds, h⟩ := List.exists_cons_of_ne_nil (Nat.toDigits_ne_nil (n := n) (b := 10))
  have digit : d.isDigit := digits_toDigits n d (by rw [h]; exact List.mem_cons_self)
  refine ⟨d, ds, h, digit, ?_, ?_⟩
  · rintro rfl
    exact absurd digit (by decide)
  · rintro rfl
    exact absurd digit (by decide)

/-- The exponent that is written behind the digits. -/
theorem exponentOfText?_int (n : Int) : exponentOfText? ('e' :: (toString n).toList) = some n := by
  rw [toList_int]
  by_cases negative : n < 0
  · rw [if_pos negative]
    simp only [exponentOfText?, beq_self_eq_true, Bool.true_or, if_true, natOfDigits?_decimal]
    show some (-((-n).toNat : Int)) = some n
    exact congrArg some (by omega)
  · rw [if_neg negative]
    obtain ⟨d, ds, h, _, minus, plus⟩ := exists_toDigits n.toNat
    have digits := natOfDigits?_decimal n.toNat
    rw [h] at digits ⊢
    simp only [exponentOfText?, beq_self_eq_true, Bool.true_or, if_true]
    split
    · exact absurd (List.cons.inj ‹_›).1 minus
    · exact absurd (List.cons.inj ‹_›).1 plus
    · rw [digits]
      exact congrArg some (Int.toNat_of_nonneg (by omega))

theorem natOfText?_toDigits (n : Nat) : natOfText? (Nat.toDigits 10 n) = some n := by
  have digits := natOfDigits?_decimal n
  by_cases zero : n = 0
  · rw [zero]
    decide
  · have first := head?_toDigits (Nat.pos_of_ne_zero zero)
    generalize Nat.toDigits 10 n = cs at *
    rw [natOfText?]
    · exact digits
    all_goals
      intros
      subst cs
      exact absurd rfl first

theorem intOfText?_int (n : Int) : intOfText? (toString n).toList = some n := by
  rw [toList_int]
  by_cases negative : n < 0
  · rw [if_pos negative, intOfText?, natOfText?_toDigits]
    show some (-((-n).toNat : Int)) = some n
    exact congrArg some (by omega)
  · rw [if_neg negative]
    obtain ⟨d, ds, h, _, minus, plus⟩ := exists_toDigits n.toNat
    have digits := natOfText?_toDigits n.toNat
    rw [h] at digits ⊢
    rw [intOfText?]
    · rw [digits]
      exact congrArg some (Int.toNat_of_nonneg (by omega))
    · exact fun _ same => minus (List.cons.inj same).1
    · exact fun _ same => plus (List.cons.inj same).1

theorem resolveInt?_int {n : Int} (range : (Number.int n).InRange) :
    resolveInt? (toString n) = some (.value (.num (.int n))) := by
  rw [resolveInt?, intOfText?_int]
  exact if_pos range

/-! Doubles. -/

/-- A number with a point or an exponent, and the decimal that it is read as. -/
structure DecimalText (cs : List Char) (q : Nat) (g : Int) : Prop where
  digit : ∃ d ds, cs = d :: ds ∧ d.isDigit
  fractional : ∃ c ∈ cs, c = '.' ∨ c = 'e'
  reads : ∀ negative, decimalOfText? negative cs = some (.ofDecimal negative q g)

theorem exists_digit {ds rest : List Char} (nonempty : ds ≠ []) (digits : Digits ds) :
    ∃ c cs, ds ++ rest = c :: cs ∧ c.isDigit := by
  obtain ⟨d, ds, rfl⟩ := List.exists_cons_of_ne_nil nonempty
  exact ⟨d, ds ++ rest, rfl, digits d List.mem_cons_self⟩

theorem decimalText_point {whole fraction rest : List Char} {n : Nat} {e : Int}
    (nonempty : whole ≠ []) (digits : Digits whole) (digits' : Digits fraction)
    (value : natOfDigits? 10 (whole ++ fraction) = some n)
    (stop : ∀ c, rest.head? = some c → c.isDigit = false)
    (exponent : exponentOfText? rest = some e) :
    DecimalText (whole ++ '.' :: (fraction ++ rest)) n (e - fraction.length) :=
  ⟨exists_digit nonempty digits, ⟨'.', by simp, Or.inl rfl⟩,
    decimalOfText?_point digits digits' stop value exponent⟩

/-- Without an exponent. -/
theorem decimalText_positional {whole fraction : List Char} {n : Nat} (nonempty : whole ≠ [])
    (digits : Digits whole) (digits' : Digits fraction)
    (value : natOfDigits? 10 (whole ++ fraction) = some n) :
    DecimalText (whole ++ '.' :: fraction) n (-fraction.length) := by
  have stop : ∀ c, ([] : List Char).head? = some c → c.isDigit = false := by
    intro c hc
    cases hc
  have text := decimalText_point nonempty digits digits' value stop (e := 0) rfl
  rwa [List.append_nil, Int.zero_sub] at text

/-! The layouts of the digits `ds` of `n`. -/

section
variable {ds : List Char} {n : Nat} (nonempty : ds ≠ []) (digits : Digits ds)
  (value : natOfDigits? 10 ds = some n)
include nonempty digits value

/-- A zero before the point, and perhaps more behind it. -/
theorem decimalText_small (k : Nat) :
    DecimalText ('0' :: '.' :: (List.replicate k '0' ++ ds)) n (-(k + ds.length : Nat)) := by
  have zeros : natOfDigits? 10 (List.replicate (k + 1) '0' ++ ds) = some n :=
    (natOfDigits?_zeros (by decide) (k + 1) nonempty).trans value
  have text := decimalText_positional (List.cons_ne_nil '0' []) (digits_zeros 1)
    ((digits_zeros k).append digits) zeros
  rwa [List.length_append, List.length_replicate] at text

/-- Perhaps zeros before the point, and one behind it. -/
theorem decimalText_large (k : Nat) :
    DecimalText (ds ++ List.replicate k '0' ++ ['.', '0']) (n * Nat.pow 10 (k + 1)) (-1) := by
  have zeros := natOfDigits?_append_zeros nonempty value (k + 1)
  rw [List.replicate_succ', ← List.append_assoc] at zeros
  exact decimalText_positional (by simp [nonempty]) (digits.append (digits_zeros k))
    (digits_zeros 1) zeros

/-- Digits on both sides of the point. -/
theorem decimalText_split {k : Nat} (positive : 0 < k) :
    DecimalText (ds.take k ++ '.' :: ds.drop k) n (-(ds.length - k : Nat)) := by
  have front : ds.take k ≠ [] := by
    rw [Ne, List.take_eq_nil_iff]
    rintro (zero | empty)
    · exact Nat.ne_of_gt positive zero
    · exact nonempty empty
  rw [← List.take_append_drop k ds] at value
  have text := decimalText_positional front (fun c hc => digits c (List.mem_of_mem_take hc))
    (fun c hc => digits c (List.mem_of_mem_drop hc)) value
  rwa [List.length_drop] at text

/-- One digit, the others behind a point if there are any, and an exponent. -/
theorem decimalText_exponent (e : Int) :
    DecimalText (ds.take 1 ++ (if ds.length ≤ 1 then [] else '.' :: ds.drop 1) ++
      'e' :: (toString e).toList) n (e - (ds.length - 1 : Nat)) := by
  have stop : ∀ c, ('e' :: (toString e).toList).head? = some c → c.isDigit = false ∧ c ≠ '.' := by
    intro c hc
    obtain rfl : 'e' = c := by simpa using hc
    decide
  obtain ⟨d, rest, rfl⟩ := List.exists_cons_of_ne_nil nonempty
  have first : Digits [d] := fun c hc => digits c (by simpa using Or.inl hc)
  have shape : ∃ c cs, d :: (rest ++ 'e' :: (toString e).toList) = c :: cs ∧ c.isDigit :=
    ⟨d, _, rfl, digits d List.mem_cons_self⟩
  rcases rest with _ | ⟨d', rest⟩
  · have reads := decimalOfText?_whole first stop value (exponentOfText?_int e)
    refine ⟨shape, ⟨'e', by simp, Or.inr rfl⟩, fun negative => ?_⟩
    rw [List.length_singleton, Nat.sub_self, Int.natCast_zero, Int.sub_zero]
    exact reads negative
  · have text := decimalText_point (List.cons_ne_nil d []) first
      (fun c hc => digits c (List.mem_cons_of_mem d hc)) value (fun c hc => (stop c hc).1)
      (exponentOfText?_int e)
    simpa using text

end

/-- Every layout of a double is a decimal of the same value. -/
theorem decimalText_text {s : Scientific} (positive : 0 < s.digits) :
    ∃ q g, 0 < q ∧ DecimalText s.text.toList q g ∧
      ∀ {m e : Nat}, Stands m e s.digits s.exponent → Stands m e q g := by
  obtain ⟨n, sig⟩ := significant positive
  simp only [Scientific.text]
  generalize ((Nat.toDigits 10 s.digits).reverse.takeWhile (· == '0')).length = k at *
  generalize (Nat.toDigits 10 s.digits).take ((Nat.toDigits 10 s.digits).length - k) = ds at *
  have nonzero : 0 < n := by
    refine Nat.pos_of_ne_zero fun zero => ?_
    rw [sig.scale, zero, Nat.zero_mul] at positive
    cases positive
  have moved {m e : Nat} (h : Stands m e s.digits s.exponent) : Stands m e n (s.exponent + k) := by
    rw [sig.scale] at h
    exact (Scientific.stands_scaled k).mp h
  have length : 0 < ds.length := List.length_pos_iff.mpr sig.nonempty
  generalize point : s.exponent + k + ds.length = p
  rw [show s.exponent + k = p - ds.length by omega] at moved
  split
  · have text := decimalText_small sig.nonempty sig.digits sig.value (-p).toNat
    rw [show -(((-p).toNat + ds.length : Nat) : Int) = p - ds.length by omega] at text
    refine ⟨n, _, nonzero, ?_, moved⟩
    rw [String.toList_append, String.toList_ofList, String.toList_ofList]
    exact text
  · split
    · split
      · have text := decimalText_large sig.nonempty sig.digits sig.value (p.toNat - ds.length)
        refine ⟨_, -1, Nat.mul_pos nonzero (Nat.pow_pos (by decide)), ?_, fun h =>
          (Scientific.stands_scaled (p.toNat - ds.length + 1)).mpr ?_⟩
        · rw [String.toList_append, String.toList_ofList]
          exact text
        · convert moved h using 1
          omega
      · have text := decimalText_split sig.nonempty sig.digits sig.value (k := p.toNat) (by omega)
        rw [show -((ds.length - p.toNat : Nat) : Int) = p - ds.length by omega] at text
        refine ⟨n, _, nonzero, ?_, moved⟩
        simpa [String.toList_append, String.toList_ofList] using text
    · have text := decimalText_exponent sig.nonempty sig.digits sig.value (p - 1)
      rw [show p - 1 - ((ds.length - 1 : Nat) : Int) = p - ds.length by omega] at text
      refine ⟨n, _, nonzero, ?_, moved⟩
      simpa [String.toList_append, String.toList_ofList, apply_ite String.toList] using text

/-- What numbers are written with makes no null and no boolean. -/
theorem resolvePlain_numeric {s : String} (numeric : Numeric s.toList) (nonempty : s ≠ "") :
    isNullText s = false ∧ boolOfText? s = none ∧ s.isEmpty = false := by
  have other (t : String) (h : ¬ Numeric t.toList) : (s == t) = false :=
    beq_false_of_ne fun same => h (same ▸ numeric)
  refine ⟨?_, ?_, ?_⟩
  · rw [isNullText, other "null" (by decide), other "Null" (by decide), other "NULL" (by decide),
      other "~" (by decide)]
    rfl
  · rw [boolOfText?, other "true" (by decide), other "True" (by decide), other "TRUE" (by decide),
      other "false" (by decide), other "False" (by decide), other "FALSE" (by decide)]
    rfl
  · simpa using nonempty

section
variable {cs : List Char} (numeric : Numeric cs) (fractional : ∃ c ∈ cs, c = '.' ∨ c = 'e')
include fractional

include numeric in
/-- A number with a point or an exponent is no integer. -/
theorem natOfText?_fractional : natOfText? cs = none := by
  obtain ⟨c, hc, point⟩ := fractional
  have digits : natOfDigits? 10 cs = none :=
    natOfDigits?_eq_none hc (digit?_eq_none (point.imp id Or.inl))
  have letter (base : Char) (h : isNumeric base = false) : base ∉ cs := fun hb => by
    have := numeric base hb
    rw [h] at this
    cases this
  rw [natOfText?.eq_def]
  split
  · exact absurd (by simp) (letter 'x' (by decide))
  · exact absurd (by simp) (letter 'o' (by decide))
  · exact absurd (by simp) (letter 'b' (by decide))
  · rfl
  · exact digits

end

/-- A zero and more digits are digits, perhaps behind a sign. -/
theorem digit_of_isZeroLed {cs : List Char} (h : isZeroLed cs) :
    ∀ c ∈ cs, c.isDigit ∨ c = '-' ∨ c = '+' := by
  have digits {d : Char} {ds : List Char} (all : (d :: ds).all Char.isDigit) :
      Digits ('0' :: d :: ds) := by
    intro c hc
    rcases List.mem_cons.mp hc with rfl | hc
    · decide
    · exact List.all_eq_true.mp all c hc
  rw [isZeroLed.eq_def] at h
  split at h <;> dsimp only at h
  · split at h
    · exact fun c hc => (List.mem_cons.mp hc).symm.imp (digits h c) Or.inl
    · cases h
  · split at h
    · exact fun c hc => (List.mem_cons.mp hc).symm.imp (digits h c) Or.inr
    · cases h
  · split at h
    · exact fun c hc => Or.inl (digits h c hc)
    · cases h

theorem isZeroLed_fractional {cs : List Char} (fractional : ∃ c ∈ cs, c = '.' ∨ c = 'e') :
    isZeroLed cs = false := by
  refine Bool.eq_false_iff.mpr fun led => ?_
  obtain ⟨c, hc, rfl | rfl⟩ := fractional
  · exact absurd (digit_of_isZeroLed led _ hc) (by decide)
  · exact absurd (digit_of_isZeroLed led _ hc) (by decide)

section
variable {s t : String} {q : Nat} {g : Int} {negative : Bool} (text : DecimalText t.toList q g)
  (sign : s = (if negative then "-" else "") ++ t)
include text sign

/-- A double and its sign in text. -/
theorem DecimalText.signed : ∃ d ds, t.toList = d :: ds ∧ d ≠ '-' ∧ d ≠ '+' ∧ d ≠ '.' ∧
    s.toList = if negative then '-' :: d :: ds else d :: ds := by
  obtain ⟨d, ds, first, digit⟩ := text.digit
  have other (c : Char) (noDigit : c.isDigit = false) : d ≠ c := by
    rintro rfl
    rw [digit] at noDigit
    cases noDigit
  refine ⟨d, ds, first, other '-' rfl, other '+' rfl, other '.' rfl, ?_⟩
  rw [sign, String.toList_append, first]
  cases negative <;> rfl

theorem resolveInt?_decimal (numeric : Numeric t.toList) : resolveInt? s = none := by
  obtain ⟨d, ds, first, minus, plus, _, chars⟩ := text.signed sign
  have none := natOfText?_fractional numeric text.fractional
  rw [first] at none
  rw [resolveInt?, chars]
  cases negative with
  | true => rw [if_pos rfl, intOfText?, none]; rfl
  | false =>
    rw [if_neg Bool.false_ne_true, intOfText?]
    · rw [none]; rfl
    · exact fun _ same => minus (List.cons.inj same).1
    · exact fun _ same => plus (List.cons.inj same).1

theorem floatOfText?_decimal {x : Binary64} (value : Binary64.ofDecimal negative q g = x)
    (finite : x.isFinite) : floatOfText? s = some x := by
  obtain ⟨d, ds, first, minus, plus, point, chars⟩ := text.signed sign
  have reads := text.reads negative
  rw [first, value] at reads
  -- The words for what is no number start with a point.
  have notNan (t : String) (cs : List Char) (h : t.toList = '.' :: cs) : (s == t) = false := by
    refine beq_false_of_ne ?_
    rintro rfl
    rw [h] at chars
    cases negative with
    | true => cases chars
    | false => exact point (List.cons.inj chars).1.symm
  have notInf (t : String) (cs : List Char) (h : t.toList = '.' :: cs) :
      decide (d :: ds = t.toList) = false := by
    rw [h]
    exact decide_eq_false fun same => point (List.cons.inj same).1
  have tail : (if decide (d :: ds = ".inf".toList) || decide (d :: ds = ".Inf".toList) ||
      decide (d :: ds = ".INF".toList) then some (Binary64.infinite negative)
      else (decimalOfText? negative (d :: ds)).filter Binary64.isFinite) = some x := by
    rw [notInf ".inf" _ rfl, notInf ".Inf" _ rfl, notInf ".INF" _ rfl, if_neg (by decide), reads,
      Option.filter_some, if_pos finite]
  rw [floatOfText?, notNan ".nan" _ rfl, notNan ".NaN" _ rfl, notNan ".NAN" _ rfl, chars]
  cases negative with
  | true => exact tail
  | false =>
    simp only [Bool.or_self, Bool.false_eq_true, if_false]
    split
    · exact absurd (List.cons.inj ‹_›).1 minus
    · exact absurd (List.cons.inj ‹_›).1 plus
    · exact tail

theorem resolvePlain_decimal {x : Binary64} (numeric : Numeric t.toList)
    (value : Binary64.ofDecimal negative q g = x) (finite : x.isFinite) :
    resolvePlain s = .value (.num (.float x)) := by
  obtain ⟨d, ds, _, _, _, _, chars⟩ := text.signed sign
  have filled : s ≠ "" := by
    rintro rfl
    cases negative <;> cases chars
  have wide : Numeric s.toList := by
    rw [sign, String.toList_append]
    refine Numeric.append ?_ numeric
    cases negative <;> decide
  have fractional : ∃ c ∈ s.toList, c = '.' ∨ c = 'e' := by
    obtain ⟨c, hc, h⟩ := text.fractional
    exact ⟨c, by rw [sign, String.toList_append]; exact List.mem_append_right _ hc, h⟩
  obtain ⟨noNull, noBool, nonempty⟩ := resolvePlain_numeric wide filled
  rw [resolvePlain, nonempty, noNull, noBool, resolveInt?_decimal text sign numeric]
  simp only [isZeroLed_fractional fractional, floatOfText?_decimal text sign value finite]
  rfl

end

/-- A number in text is read as this number. -/
theorem resolvePlain_number {n : Number} (range : n.InRange) :
    resolvePlain n.text = .value (.num n) := by
  cases n with
  | int i =>
    have nonempty : toString i ≠ "" := by
      intro empty
      have read := intOfText?_int i
      rw [empty] at read
      exact absurd read (by simp [intOfText?, natOfText?, natOfDigits?])
    obtain ⟨noNull, noBool, filled⟩ := resolvePlain_numeric (Numeric.int i) nonempty
    rw [Number.text, resolvePlain, filled, noNull, noBool, resolveInt?_int range]
    rfl
  | float x =>
    cases x with
    | nan => rfl
    | infinite negative => cases negative <;> rfl
    | finite negative m e canonical =>
      by_cases zero : m = 0
      · obtain rfl : e = 0 := by
          have := canonical.2.2
          omega
        subst zero
        have text : DecimalText "0.0".toList 0 (-1) :=
          decimalText_positional (List.cons_ne_nil '0' []) (digits_zeros 1)
            (digits_zeros 1) (by decide)
        refine resolvePlain_decimal text rfl (by decide) ?_ rfl
        rw [Binary64.ofDecimal, if_pos (Or.inl rfl)]
        rfl
      · have positive : 0 < m := Nat.pos_of_ne_zero zero
        have rounds := Scientific.shortest_roundsTo (e := e) positive
        obtain ⟨q, g, nonzero, text, stands⟩ :=
          decimalText_text (Scientific.digits_pos positive rounds)
        refine resolvePlain_decimal text ?_ (Scientific.numeric_text _)
          (ofDecimal_of_stands canonical positive (stands (stands_of_roundsTo rounds)) nonzero
            negative) rfl
        rw [Number.text, Binary64.text, if_neg zero]

/-- What does not look like another value is read as the string that it is. -/
theorem resolvePlain_string {s : String} (other : Write.looksLikeOther s = false) :
    resolvePlain s = .value (.str s) := by
  rw [Write.looksLikeOther] at other
  split at other
  · rename_i t resolved
    rw [resolved]
    rw [resolvePlain] at resolved
    split at resolved
    · cases resolved
    · split at resolved
      · cases resolved
      · split at resolved
        · rename_i r int
          subst resolved
          rw [resolveInt?] at int
          split at int
          · cases int
          · split at int
            · cases int
            · split at int <;> cases int
        · split at resolved
          · cases resolved
          · exact resolved.symm
  · cases other

end Yaml
end Questionnaire
