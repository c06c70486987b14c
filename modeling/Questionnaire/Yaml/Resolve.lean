import Questionnaire.Text.Digits
import Questionnaire.Yaml.Value

/-!
The value that a plain scalar writes: null, a boolean, an integer, a float, or else a string. A
leading zero followed by digits alone makes no number.
-/
namespace Questionnaire.Yaml

def isNullText (s : String) : Bool :=
  s == "null" || s == "Null" || s == "NULL" || s == "~"

def boolOfText? (s : String) : Option Bool :=
  if s == "true" || s == "True" || s == "TRUE" then some true
  else if s == "false" || s == "False" || s == "FALSE" then some false
  else none

/-- Digits behind a prefix for the base, or decimal digits. -/
def natOfText? : List Char → Option Nat
  | '0' :: 'x' :: cs => natOfDigits? 16 cs
  | '0' :: 'o' :: cs => natOfDigits? 8 cs
  | '0' :: 'b' :: cs => natOfDigits? 2 cs
  | '0' :: _ :: _ => none
  | cs => natOfDigits? 10 cs

def intOfText? : List Char → Option Int
  | '-' :: cs => (natOfText? cs).map fun n => -(n : Int)
  | '+' :: cs => (natOfText? cs).map Int.ofNat
  | cs => (natOfText? cs).map Int.ofNat

/-- Is this a zero and more digits, perhaps with a sign? -/
def isZeroLed (cs : List Char) : Bool :=
  let digits := match cs with
    | '-' :: cs => cs
    | '+' :: cs => cs
    | cs => cs
  match digits with
  | '0' :: c :: cs => (c :: cs).all Char.isDigit
  | _ => false

/-- The exponent behind the digits of a float, zero if there is none. -/
def exponentOfText? : List Char → Option Int
  | [] => some 0
  | e :: cs =>
    if e == 'e' || e == 'E' then
      match cs with
      | '-' :: cs => (natOfDigits? 10 cs).map fun n => -(n : Int)
      | '+' :: cs => (natOfDigits? 10 cs).map Int.ofNat
      | cs => (natOfDigits? 10 cs).map Int.ofNat
    else none

/-- Digits with a point anywhere among them or none, and an exponent or none. -/
def decimalOfText? (negative : Bool) (cs : List Char) : Option Binary64 := do
  let whole := cs.takeWhile Char.isDigit
  let rest := cs.dropWhile Char.isDigit
  let (fraction, rest) := match rest with
    | '.' :: rest => (rest.takeWhile Char.isDigit, rest.dropWhile Char.isDigit)
    | rest => ([], rest)
  let digits ← natOfDigits? 10 (whole ++ fraction)
  let exponent ← exponentOfText? rest
  return .ofDecimal negative digits (exponent - fraction.length)

/-- The words for infinity, and decimals within the range of doubles. -/
def floatOfText? (s : String) : Option Binary64 :=
  if s == ".nan" || s == ".NaN" || s == ".NAN" then some .nan
  else
    let (negative, cs) := match s.toList with
      | '-' :: cs => (true, cs)
      | '+' :: cs => (false, cs)
      | cs => (false, cs)
    if cs = ".inf".toList || cs = ".Inf".toList || cs = ".INF".toList then some (.infinite negative)
    else (decimalOfText? negative cs).filter Binary64.isFinite

/-- An integer as a value: below `2 ^ 64` and from `-2 ^ 63` on. Integers outside of that are
refused if they fit 128 bits, and are no integers beyond. -/
inductive Resolved
  | value (v : Value)
  | tooBig (n : Int)

def resolveInt? (s : String) : Option Resolved :=
  match intOfText? s.toList with
  | none => none
  | some n =>
    if -0x8000000000000000 ≤ n ∧ n ≤ 0xFFFFFFFFFFFFFFFF then some (.value (.num (.int n)))
    else if -0x80000000000000000000000000000000 ≤ n ∧ n ≤ 0xFFFFFFFFFFFFFFFFFFFFFFFFFFFFFFFF then
      some (.tooBig n)
    else none

/-- What a plain scalar stands for. -/
def resolvePlain (s : String) : Resolved :=
  if s.isEmpty || isNullText s then .value .null
  else match boolOfText? s with
    | some b => .value (.bool b)
    | none => match resolveInt? s with
      | some r => r
      | none => match if isZeroLed s.toList then none else floatOfText? s with
        | some x => .value (.num (.float x))
        | none => .value (.str s)

end Questionnaire.Yaml
