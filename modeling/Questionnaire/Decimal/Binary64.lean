/-!
Doubles as exact numbers: a finite double is a signed integer mantissa times a power of two, so
reading a decimal is one rounding of an exact fraction. No hardware arithmetic is used.
-/
namespace Questionnaire

/-- Mantissa and exponent of a finite double, each value having one form: the mantissa has 53 bits,
or fewer with the least exponent. -/
def Canonical (mantissa exponent : Nat) : Prop :=
  mantissa < 0x20000000000000 ∧ exponent ≤ 2045 ∧ (exponent = 0 ∨ 0x10000000000000 ≤ mantissa)

instance (m e : Nat) : Decidable (Canonical m e) := by unfold Canonical; infer_instance

/-- A finite double stands for `mantissa * 2 ^ exponent / 2 ^ 1074`, with its sign. -/
inductive Binary64
  | nan
  | infinite (negative : Bool)
  | finite (negative : Bool) (mantissa exponent : Nat) (canonical : Canonical mantissa exponent)
  deriving DecidableEq, Repr

/-- The quotient rounded to the nearest integer, a half going to the even neighbour. -/
def roundHalfEven (num den : Nat) : Nat :=
  let q := num / den
  let r := num % den
  if den < 2 * r ∨ (2 * r = den ∧ q % 2 = 1) then q + 1 else q

namespace Binary64

def zero (negative : Bool) : Binary64 := .finite negative 0 0 (by decide)

/-- A pair past the largest finite double is an infinity. -/
def ofParts (negative : Bool) (mantissa exponent : Nat) : Binary64 :=
  if h : Canonical mantissa exponent then .finite negative mantissa exponent h
  else .infinite negative

/-- The double nearest to `num / den`, a tie going to the even mantissa. -/
def ofRatio (negative : Bool) (num den : Nat) : Binary64 :=
  let scaled := num * Nat.pow 2 1074
  let exponent := (scaled / den).log2 - 52
  let mantissa := roundHalfEven scaled (den * Nat.pow 2 exponent)
  if mantissa = 0x20000000000000 then ofParts negative 0x10000000000000 (exponent + 1)
  else ofParts negative mantissa exponent

/-- The double nearest to `digits * 10 ^ exponent`. Powers far outside the range of doubles are
not computed: they round to zero or to infinity. -/
def ofDecimal (negative : Bool) (digits : Nat) (exponent : Int) : Binary64 :=
  let magnitude := (Nat.toDigits 10 digits).length + exponent
  if digits = 0 ∨ magnitude < -400 then zero negative
  else if 400 < magnitude then .infinite negative
  else if 0 ≤ exponent then ofRatio negative (digits * Nat.pow 10 exponent.toNat) 1
  else ofRatio negative digits (Nat.pow 10 (-exponent).toNat)

def isFinite : Binary64 → Bool
  | .finite .. => true
  | _ => false

/-- Equality of numbers: the two zeros are one number, and so are all NaNs. -/
def same : Binary64 → Binary64 → Bool
  | .nan, .nan => true
  | .infinite s, .infinite t => s == t
  | .finite s m e _, .finite t n f _ => m == n && e == f && (s == t || m == 0)
  | _, _ => false

end Binary64
end Questionnaire
