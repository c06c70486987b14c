/-! Bytes read as text, with U+FFFD in place of what is no character. -/
namespace Questionnaire.Text

/-- How a leading byte goes on: the number of bytes behind it, and the bounds of the first of them.
-/
def leading (b : Nat) : Option (Nat × Nat × Nat) :=
  if b < 0x80 then some (0, 0, 0)
  else if 0xC2 ≤ b ∧ b ≤ 0xDF then some (1, 0x80, 0xBF)
  else if b = 0xE0 then some (2, 0xA0, 0xBF)
  else if b = 0xED then some (2, 0x80, 0x9F)
  else if 0xE1 ≤ b ∧ b ≤ 0xEF then some (2, 0x80, 0xBF)
  else if b = 0xF0 then some (3, 0x90, 0xBF)
  else if 0xF1 ≤ b ∧ b ≤ 0xF3 then some (3, 0x80, 0xBF)
  else if b = 0xF4 then some (3, 0x80, 0x8F)
  else none

/-- A character that has been begun: its bits so far, the bytes still to come, and the bounds of the
next one. -/
structure Begun where
  bits : Nat
  missing : Nat
  low : Nat
  high : Nat

/-- A byte at which a character may begin. -/
def beginWith (b : Nat) : Option Begun × List Char :=
  match leading b with
  | none => (none, ['\uFFFD'])
  | some (0, _, _) => (none, [Char.ofNat b])
  | some (n, low, high) => (some ⟨b % Nat.pow 2 (6 - n), n, low, high⟩, [])

/-- Reads bytes. A character that is broken off is replaced as a whole. -/
def decode : Option Begun → List UInt8 → List Char
  | none, [] => []
  | some _, [] => ['\uFFFD']
  | none, b :: bs =>
    let (begun, cs) := beginWith b.toNat
    cs ++ decode begun bs
  | some c, b :: bs =>
    let n := b.toNat
    if c.low ≤ n ∧ n ≤ c.high then
      let bits := c.bits * 64 + n % 64
      if c.missing = 1 then Char.ofNat bits :: decode none bs
      else decode (some ⟨bits, c.missing - 1, 0x80, 0xBF⟩) bs
    else
      let (begun, cs) := beginWith n
      '\uFFFD' :: (cs ++ decode begun bs)

/-- The text of bytes. -/
def ofBytes (bytes : ByteArray) : String := String.ofList (decode none bytes.toList)

end Questionnaire.Text
