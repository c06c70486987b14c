import Mathlib.Algebra.GroupWithZero.Nat
import Questionnaire.Yaml.Write.Scalar

/-!
Text that is written as it is read: no character of it is a carriage return, a tab or anything else
that is left out or read as another one (`locate_printable`). Then the rest of a text is known by a
place and the characters that are left (`placed`).
-/
namespace Questionnaire.Yaml
open Write

/-- The place behind a character. -/
def Mark.step (m : Mark) (c : Char) : Mark :=
  if isBreak c then m.nextLine c.utf8Size else m.after c

/-- The place behind some characters. -/
def Mark.past (m : Mark) (cs : List Char) : Mark := cs.foldl Mark.step m

namespace Mark
variable {m : Mark} {c : Char} {cs ds : List Char}

@[simp]
theorem past_nil (m : Mark) : m.past [] = m := rfl

@[simp]
theorem past_cons (m : Mark) (c : Char) (cs : List Char) : m.past (c :: cs) = (m.step c).past cs :=
  rfl

theorem past_append (m : Mark) (cs ds : List Char) : m.past (cs ++ ds) = (m.past cs).past ds :=
  List.foldl_append

theorem step_of_not_break (h : isBreak c = false) : m.step c = m.after c := by
  rw [step, h, if_neg Bool.false_ne_true]

theorem step_of_break (h : isBreak c) : m.step c = m.nextLine c.utf8Size := if_pos h

theorem column_step_of_break (h : isBreak c) : (m.step c).column = 0 := by
  rw [step_of_break h]
  rfl

theorem column_past_breaks (breaks : ∀ c ∈ cs, isBreak c) (nonempty : cs ≠ []) :
    (m.past cs).column = 0 := by
  rcases List.eq_nil_or_concat cs with rfl | ⟨before, c, rfl⟩
  · exact absurd rfl nonempty
  · rw [List.concat_eq_append, past_append]
    exact column_step_of_break (breaks c (by simp))

theorem column_step (h : isBreak c = false) : (m.step c).column = m.column + 1 := by
  rw [step_of_not_break h]
  rfl

theorem line_step (m : Mark) (c : Char) : m.line ≤ (m.step c).line := by
  rw [step]
  split
  · exact Nat.le_succ _
  · exact Nat.le_refl _

theorem line_past (m : Mark) (cs : List Char) : m.line ≤ (m.past cs).line := by
  induction cs generalizing m with
  | nil => exact Nat.le_refl _
  | cons c cs ih => exact Nat.le_trans (line_step m c) (ih _)

/-- Behind a line break the line is a later one. -/
theorem line_past_of_break (m : Mark) (h : ∃ c ∈ cs, isBreak c) : m.line < (m.past cs).line := by
  obtain ⟨c, hc, broken⟩ := h
  obtain ⟨before, after, rfl⟩ := List.append_of_mem hc
  rw [past_append, past_cons, step_of_break broken]
  have first := line_past m before
  have rest := line_past ((m.past before).nextLine c.utf8Size) after
  exact Nat.lt_of_lt_of_le (Nat.lt_succ_of_le first) rest

/-- The bytes of some characters. -/
def bytes (cs : List Char) : Nat := (cs.map Char.utf8Size).sum

@[simp]
theorem bytes_nil : bytes [] = 0 := rfl

@[simp]
theorem bytes_cons (c : Char) (cs : List Char) : bytes (c :: cs) = c.utf8Size + bytes cs := rfl

theorem bytes_append (cs ds : List Char) : bytes (cs ++ ds) = bytes cs + bytes ds := by
  rw [bytes, List.map_append, List.sum_append]
  rfl

/-- Characters on one line. -/
structure Across (m m' : Mark) (cs : List Char) : Prop where
  line : m'.line = m.line
  column : m'.column = m.column + cs.length
  offset : m'.offset = m.offset + bytes cs

theorem across_past (m : Mark) (line : ∀ c ∈ cs, isBreak c = false) :
    Across m (m.past cs) cs := by
  induction cs generalizing m with
  | nil => exact ⟨rfl, rfl, rfl⟩
  | cons c cs ih =>
    have rest := ih (m.step c) fun d hd => line d (List.mem_cons_of_mem c hd)
    rw [step_of_not_break (line c List.mem_cons_self)] at rest
    rw [past_cons, step_of_not_break (line c List.mem_cons_self)]
    refine ⟨rest.line, rest.column.trans ?_, rest.offset.trans ?_⟩
    · simp only [after, List.length_cons]
      omega
    · simp only [after, bytes_cons]
      omega

end Mark

namespace Text

/-- Characters that stand for themselves, from a place on. -/
def placed (m : Mark) : List Char → Text
  | [] => [⟨endOfText, m⟩]
  | c :: cs => ⟨c, m⟩ :: placed (m.step c) cs

theorem locate_printable {cs : List Char} (printable : ∀ c ∈ cs, isPrintable c) (m : Mark) :
    locate m cs = placed m cs := by
  induction cs generalizing m with
  | nil => rfl
  | cons c cs ih =>
    have first := printable c List.mem_cons_self
    have rest := ih fun d hd => printable d (List.mem_cons_of_mem c hd)
    have return_ : c ≠ '\r' := by rintro rfl; exact absurd first (by decide)
    have nextLine : c ≠ '\u0085' := by rintro rfl; exact absurd first (by decide)
    have other : (c == '\r' || c == '\u0085') = false := by simp [return_, nextLine]
    rw [placed, ← rest, locate.eq_3 m c cs fun _ same _ => return_ same, other,
      if_neg Bool.false_ne_true, Mark.step]
    split <;> rfl

variable {m : Mark} {c d : Char} {cs ds : List Char}

@[simp]
theorem peek_nil : peek (placed m []) = endOfText := rfl

@[simp]
theorem peek_cons : peek (placed m (c :: cs)) = c := rfl

theorem peek_placed (m : Mark) (cs : List Char) : peek (placed m cs) = cs.headD endOfText := by
  cases cs <;> rfl

@[simp]
theorem peekAt_zero : peekAt 0 (placed m cs) = peek (placed m cs) := rfl

@[simp]
theorem peekAt_succ (n : Nat) :
    peekAt (n + 1) (placed m (c :: cs)) = peekAt n (placed (m.step c) cs) :=
  rfl

@[simp]
theorem peekAt_nil (n : Nat) : peekAt n (placed m []) = endOfText := by
  cases n <;> simp [peekAt, placed]

@[simp]
theorem mark_placed : mark (placed m cs) = m := by
  cases cs <;> rfl

@[simp]
theorem column_placed : column (placed m cs) = m.column := by
  rw [column, mark_placed]

@[simp]
theorem drop_placed : (placed m (c :: cs)).drop 1 = placed (m.step c) cs := rfl

@[simp]
theorem length_placed : (placed m cs).length = cs.length + 1 := by
  induction cs generalizing m with
  | nil => rfl
  | cons c cs ih => rw [placed, List.length_cons, ih, List.length_cons]

/-- A run of a class of characters, in front of one that is not of the class. -/
theorem span_placed {p : Char → Bool} (run : ∀ c ∈ cs, p c)
    (stop : p (ds.headD endOfText) = false) :
    span p (placed m (cs ++ ds)) = (cs, placed (m.past cs) ds) := by
  induction cs generalizing m with
  | nil =>
    cases ds with
    | nil =>
      have stop : p endOfText = false := stop
      simp [placed, span, stop]
    | cons d ds =>
      have stop : p d = false := stop
      simp [placed, span, stop]
  | cons c cs ih =>
    have rest := ih (m := m.step c) fun d hd => run d (List.mem_cons_of_mem c hd)
    simp [placed, span, run c List.mem_cons_self, rest]

/-- A document marker stands at the start of a line. -/
theorem atDocumentMarker_of_column (inside : m.column ≠ 0) :
    atDocumentMarker (placed m cs) = false := by
  simp [atDocumentMarker, atMarker, inside]

end Text

/-! What printable characters are not. -/
namespace Write

theorem isAllowed_of_isPrintable {c : Char} (h : isPrintable c) : Text.isAllowed c := by
  simp only [isPrintable, Text.isAllowed, Bool.or_eq_true, Bool.and_eq_true, beq_iff_eq,
    decide_eq_true_eq] at h ⊢
  have bound : c.toNat < 0x110000 := by
    have valid := c.valid
    simp only [UInt32.isValidChar, Nat.isValidChar] at valid
    have same : c.toNat = c.val.toNat := rfl
    omega
  omega

end Write
end Questionnaire.Yaml
