import Questionnaire.Decimal.Binary64

/-!
The fewest decimal digits that read back as a given double, and their layout on the page.

The reals that round to a double form an interval. Among the decimal grids `10 ^ g` the coarsest one
with a point in the interval gives the digits; of two such points the nearer is taken, and of two
equally near ones the even one.
-/
namespace Questionnaire

/-- `digits * 10 ^ exponent`. -/
structure Scientific where
  digits : Nat
  exponent : Int
  deriving DecidableEq, Repr

namespace Scientific

/-- Numerator and denominator of `10 ^ g`. -/
def unit (g : Int) : Nat × Nat := (Nat.pow 10 g.toNat, Nat.pow 10 (-g).toNat)

/-- Does `q * 10 ^ g` round to the double with mantissa `m` and exponent `e`? The bounds are the
midpoints to the neighbouring doubles and count as inside when `m` is even. -/
def roundsTo (m e q : Nat) (g : Int) : Bool :=
  let (n, d) := unit g
  let point := q * n * Nat.pow 2 1076
  let low := (if m = 0x10000000000000 ∧ e ≠ 0 then 4 * m - 1 else 4 * m - 2) * Nat.pow 2 e * d
  let high := (4 * m + 2) * Nat.pow 2 e * d
  if m % 2 = 0 then low ≤ point && point ≤ high else low < point && point < high

/-- The point of the grid `10 ^ g` that stands for the double, if there is one. -/
def onGrid (m e : Nat) (g : Int) : Option Scientific :=
  let (n, d) := unit g
  let num := m * Nat.pow 2 e * d
  let den := n * Nat.pow 2 1074
  let q := num / den
  let rest := num % den
  let below := roundsTo m e q g
  let above := roundsTo m e (q + 1) g
  let upper := den < 2 * rest ∨ (2 * rest = den ∧ q % 2 = 1)
  if below && above then some ⟨if upper then q + 1 else q, g⟩
  else if below then some ⟨q, g⟩
  else if above then some ⟨q + 1, g⟩
  else none

/-- The shortest decimal of the double with mantissa `m > 0` and exponent `e`. -/
def shortest (m e : Nat) : Scientific :=
  ((List.range 660).findSome? fun i : Nat => onGrid m e (308 - i)).getD ⟨0, 0⟩

/-- Where positional notation ends: with the point after `p` digits of the number, it is used for
`lowest < p ≤ highest`. -/
structure Layout where
  lowest : Int
  highest : Int

/-- Numbers from `0.00001` up to sixteen digits before the point are written positionally and always
show a point; others have an exponent without sign or padding. -/
def layout : Layout := ⟨-5, 16⟩

def text (s : Scientific) : String :=
  let ds := Nat.toDigits 10 s.digits
  let zeros := ds.reverse.takeWhile (· == '0')
  let ds := ds.take (ds.length - zeros.length)
  let point : Int := s.exponent + zeros.length + ds.length
  let k := point.toNat
  if layout.lowest < point ∧ point ≤ 0 then
    "0." ++ String.ofList (List.replicate (-point).toNat '0' ++ ds)
  else if 0 < point ∧ point ≤ layout.highest then
    if ds.length ≤ k then String.ofList (ds ++ List.replicate (k - ds.length) '0') ++ ".0"
    else String.ofList (ds.take k) ++ "." ++ String.ofList (ds.drop k)
  else
    String.ofList (ds.take 1) ++ (if ds.length ≤ 1 then "" else "." ++ String.ofList (ds.drop 1))
      ++ "e" ++ toString (point - 1)

end Scientific

/-- A double in text: the shortest digits, or one of the three words. -/
def Binary64.text : Binary64 → String
  | .nan => ".nan"
  | .infinite negative => if negative then "-.inf" else ".inf"
  | .finite negative m e _ =>
    (if negative then "-" else "") ++ if m = 0 then "0.0" else (Scientific.shortest m e).text

end Questionnaire
