/-! Numbers in digits, in bases up to sixteen. -/
namespace Questionnaire

/-- The value of a digit. -/
def digit? (base : Nat) (c : Char) : Option Nat :=
  let value? :=
    if '0' ≤ c ∧ c ≤ '9' then some (c.toNat - '0'.toNat)
    else if 'a' ≤ c ∧ c ≤ 'f' then some (c.toNat - 'a'.toNat + 10)
    else if 'A' ≤ c ∧ c ≤ 'F' then some (c.toNat - 'A'.toNat + 10)
    else none
  value?.filter (· < base)

/-- The number that a run of digits writes; an empty run writes none. -/
def natOfDigits? (base : Nat) : List Char → Option Nat
  | [] => none
  | cs => cs.foldl (fun n c => return (← n) * base + (← digit? base c)) (some 0)

end Questionnaire
