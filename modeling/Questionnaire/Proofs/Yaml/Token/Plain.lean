import Questionnaire.Proofs.Yaml.Text
import Questionnaire.Yaml.Token.Scalar

/-!
Plain scalars read back. A text of words with blanks between them (`PlainWords`) is read up to the
colon of the key that it is, or to the end of its line (`plain_placed`); what is written plain is
such a text (`plainWords_of_allowsPlain`).
-/
namespace Questionnaire.Yaml
open Yaml.Text (placed)

/-- So many blanks. -/
def spaces (n : Nat) : List Char := List.replicate n ' '

/-- The text goes on with something else than blanks and breaks, or ends. -/
structure Solid (cs : List Char) : Prop where
  blank : isBlank (cs.headD endOfText) = false
  unbroken : isBreak (cs.headD endOfText) = false

theorem Solid.nil : Solid [] := ⟨by decide, by decide⟩

theorem Solid.cons {c : Char} {cs : List Char} (blank : isBlank c = false)
    (unbroken : isBreak c = false) : Solid (c :: cs) := ⟨blank, unbroken⟩

theorem spaces_succ (n : Nat) : spaces (n + 1) = ' ' :: spaces n := rfl

theorem mem_spaces {n : Nat} {c : Char} (h : c ∈ spaces n) : c = ' ' := List.eq_of_mem_replicate h

theorem exists_spaces (cs : List Char) :
    ∃ n rest, cs = spaces n ++ rest ∧ rest.head? ≠ some ' ' := by
  induction cs with
  | nil => exact ⟨0, [], rfl, by simp⟩
  | cons c cs ih =>
    by_cases blank : c = ' '
    · obtain ⟨n, rest, rfl, solid⟩ := ih
      exact ⟨n + 1, rest, by rw [blank]; rfl, solid⟩
    · exact ⟨0, c :: cs, rfl, by simpa using blank⟩

namespace Token
variable {indent : Nat} {start m : Mark}

/-- A run of blanks and breaks. -/
theorem Gap.read_placed {ws cs : List Char} (run : ∀ c ∈ ws, c = ' ' ∨ isBreak c) (solid : Solid cs)
    (broken : Bool) :
    Gap.read indent start broken (placed m (ws ++ cs)) =
      .ok (⟨if broken then [] else ws.takeWhile isBlank, ws.filter isBreak,
        broken || ws.any isBreak⟩, placed (m.past ws) cs) := by
  induction ws generalizing m broken with
  | nil =>
    cases cs with
    | nil => cases broken <;> rfl
    | cons c cs =>
      have blank : isBlank c = false := solid.blank
      have unbroken : isBreak c = false := solid.unbroken
      cases broken <;> simp [placed, Gap.read, blank, unbroken]
  | cons c ws ih =>
    have rest := fun m broken => ih (m := m) (fun d hd => run d (List.mem_cons_of_mem c hd)) broken
    rw [List.cons_append, placed]
    rcases run c List.mem_cons_self with rfl | hc
    · have noTab : (' ' == '\t') = false := by decide
      have blank : isBlank ' ' := by decide
      have unbroken : isBreak ' ' = false := by decide
      rw [Gap.read]
      simp only [blank, noTab, Bool.and_false, Bool.false_eq_true, if_false, if_true, rest]
      cases broken <;> simp [blank, unbroken, bind, Except.bind, pure, Except.pure]
    · have blank : isBlank c = false := by
        simp only [isBreak, Bool.or_eq_true, beq_iff_eq] at hc
        rcases hc with (rfl | rfl) | rfl <;> decide
      rw [Gap.read]
      simp only [blank, hc, Bool.false_eq_true, if_false, if_true, rest]
      cases broken <;> simp [hc, blank, bind, Except.bind, pure, Except.pure]

theorem Gap.read_spaces {n : Nat} {cs : List Char} (solid : Solid cs) :
    Gap.read indent start false (placed m (spaces n ++ cs)) =
      .ok (⟨spaces n, [], false⟩, placed (m.past (spaces n)) cs) := by
  rw [Gap.read_placed (fun c hc => Or.inl (mem_spaces hc)) solid]
  have blank : isBlank ' ' := by decide
  have unbroken : isBreak ' ' = false := by decide
  simp [spaces, blank, unbroken]

/-- A line break and the indentation of the next line. -/
theorem Gap.read_line {n : Nat} {cs : List Char} (solid : Solid cs) :
    Gap.read indent start false (placed m ('\n' :: spaces n ++ cs)) =
      .ok (⟨[], ['\n'], true⟩, placed (m.past ('\n' :: spaces n)) cs) := by
  have run : ∀ c ∈ '\n' :: spaces n, c = ' ' ∨ isBreak c := by
    intro c hc
    rcases List.mem_cons.mp hc with rfl | hc
    · exact Or.inr (by decide)
    · exact Or.inl (mem_spaces hc)
  have broken : isBreak '\n' := by decide
  have dense : isBlank '\n' = false := by decide
  have unbroken : isBreak ' ' = false := by decide
  rw [Gap.read_placed run solid]
  simp [spaces, broken, dense, unbroken]

/-- A word of a plain scalar. A colon at its end would be the one behind a key. -/
structure IsWord (w : List Char) : Prop where
  nonempty : w ≠ []
  dense : ∀ c ∈ w, isBlankOrEnd c = false
  last : w.getLast? ≠ some ':'

/-- Where a word ends. -/
def WordEnd (cs : List Char) : Prop :=
  isBlankOrEnd (cs.headD endOfText) ∨
    ∃ rest, cs = ':' :: rest ∧ isBlankOrEnd (rest.headD endOfText)

theorem plainWord_placed {w cs : List Char} (word : ∀ c ∈ w, isBlankOrEnd c = false)
    (last : w.getLast? ≠ some ':') (stop : WordEnd cs) :
    plainWord false start (placed m (w ++ cs)) = .ok (w, placed (m.past w) cs) := by
  induction w generalizing m with
  | nil =>
    rcases stop with stop | ⟨rest, rfl, stop⟩
    · cases cs with
      | nil => rfl
      | cons c cs =>
        have stop : isBlankOrEnd c := stop
        simp [placed, plainWord, stop]
    · have colon : isBlankOrEnd ':' = false := by decide
      simp only [List.nil_append, placed, plainWord, colon, Text.peek_placed, stop]
      rfl
  | cons c w ih =>
    have dense := word c List.mem_cons_self
    have rest := ih (m := m.step c) (fun d hd => word d (List.mem_cons_of_mem c hd)) (by
      intro h
      cases w with
      | nil => simp at h
      | cons d w => exact last (by simpa using h))
    have inside : (c == ':' && isBlankOrEnd (Text.peek (placed (m.step c) (w ++ cs)))) = false := by
      cases w with
      | nil =>
        have other : (c == ':') = false := by simpa using last
        rw [other, Bool.false_and]
      | cons d w =>
        have next := word d (List.mem_cons_of_mem c List.mem_cons_self)
        simp [placed, Text.peek, Text.peekAt, next]
    rw [List.cons_append, placed, plainWord]
    simp only [dense, inside, Bool.false_and, Bool.or_self, Bool.false_eq_true, if_false, rest]
    rfl

/-- Words with blanks between them. A word behind a blank does not start a comment. -/
inductive PlainWords : List Char → Prop
  | word {w : List Char} : IsWord w → PlainWords w
  | more {w : List Char} {n : Nat} {cs : List Char} : IsWord w → cs.head? ≠ some '#' →
      PlainWords cs → PlainWords (w ++ (spaces (n + 1) ++ cs))

/-- What follows a plain scalar, whether it is a line break, and where the text goes on. -/
inductive PlainEnd (indent : Nat) (m : Mark) : List Char → Bool → Mark → List Char → Prop
  | colon {cs : List Char} : isBlankOrEnd (cs.headD endOfText) →
      PlainEnd indent m (':' :: cs) false m (':' :: cs)
  | line {n : Nat} {cs : List Char} : Solid cs → n < indent →
      PlainEnd indent m ('\n' :: spaces n ++ cs) true (m.past ('\n' :: spaces n)) cs

theorem column_past_spaces (m : Mark) (n : Nat) : (m.past (spaces n)).column = m.column + n := by
  have line : ∀ c ∈ spaces n, isBreak c = false := fun c hc => by rw [mem_spaces hc]; decide
  rw [(Mark.across_past m line).column, spaces, List.length_replicate]

/-- Breaks start a line afresh. -/
theorem column_past_indentation (m : Mark) {run : List Char} (breaks : ∀ c ∈ run, isBreak c)
    (nonempty : run ≠ []) (n : Nat) : (m.past (run ++ spaces n)).column = n := by
  rw [Mark.past_append, column_past_spaces, Mark.column_past_breaks breaks nonempty, Nat.zero_add]

theorem IsWord.unbroken {w : List Char} (word : IsWord w) : ∀ c ∈ w, isBreak c = false := by
  intro c hc
  have dense := word.dense c hc
  simp only [isBlankOrEnd, Bool.or_eq_false_iff] at dense
  exact dense.1.2

theorem IsWord.column_past {w : List Char} (word : IsWord w) (m : Mark) :
    (m.past w).column = m.column + w.length :=
  (Mark.across_past m word.unbroken).column

theorem IsWord.solid {w cs : List Char} (word : IsWord w) : Solid (w ++ cs) := by
  cases w with
  | nil => exact absurd rfl word.nonempty
  | cons c w =>
    have dense := word.dense c List.mem_cons_self
    simp only [isBlankOrEnd, Bool.or_eq_false_iff] at dense
    exact .cons dense.1.1 dense.1.2

theorem PlainWords.solid {cs ds : List Char} (words : PlainWords cs) : Solid (cs ++ ds) := by
  cases words with
  | word h => exact h.solid
  | more h _ _ => rw [List.append_assoc]; exact h.solid

theorem PlainWords.unbroken {cs : List Char} (words : PlainWords cs) :
    ∀ c ∈ cs, isBreak c = false := by
  induction words with
  | word h => exact h.unbroken
  | more h _ _ ih =>
    intro c hc
    rcases List.mem_append.mp hc with hc | hc
    · exact h.unbroken c hc
    · rcases List.mem_append.mp hc with hc | hc
      · rw [mem_spaces hc]
        decide
      · exact ih c hc

theorem PlainWords.nonempty {cs : List Char} (words : PlainWords cs) : cs ≠ [] := by
  cases words with
  | word h => exact h.nonempty
  | more h _ _ => simp [h.nonempty]

/-- The text of a gap of blanks. -/
theorem Gap.text_blanks (blanks : List Char) (escaped : Bool) :
    Gap.text ⟨blanks, [], false⟩ escaped = blanks := rfl

/-- The first word of a plain scalar, and what is looked at behind it. -/
theorem plain_word {w rest : List Char} (word : IsWord w) (comment : w.head? ≠ some '#')
    (inside : (placed m (w ++ rest)).atDocumentMarker = false) (stop : WordEnd rest) (fuel : Nat)
    (gap : Gap) :
    plain false indent start (fuel + 1) gap (placed m (w ++ rest)) =
      if !isBlank (rest.headD endOfText) && !isBreak (rest.headD endOfText) then
        .ok (gap.text ++ w, false, placed (m.past w) rest)
      else do
        let (next, t) ← Gap.read indent start false (placed (m.past w) rest)
        if Text.column t < indent then return (gap.text ++ w, next.broken, t)
        let (more, broken, t) ← plain false indent start fuel next t
        return (gap.text ++ w ++ more, broken, t) := by
  have filled : w.isEmpty = false := by simpa using word.nonempty
  have noComment : (Text.peek (placed m (w ++ rest)) == '#') = false := by
    cases w with
    | nil => exact absurd rfl word.nonempty
    | cons c w => simpa using comment
  rw [plain, inside, noComment,
    plainWord_placed word.dense word.last stop]
  simp only [Bool.or_self, Bool.false_eq_true, if_false, Bool.not_false, Bool.true_and,
    decide_eq_true_eq, bind, Except.bind, filled, Text.peek_placed]
  rfl

theorem plain_placed {cs rest tail : List Char} {broken : Bool} {m' : Mark} (words : PlainWords cs)
    (comment : cs.head? ≠ some '#') (inside : (placed m (cs ++ rest)).atDocumentMarker = false)
    (indented : indent ≤ m.column + 1) (ends : PlainEnd indent (m.past cs) rest broken m' tail)
    {fuel : Nat} (enough : cs.length < fuel) (gap : Gap) :
    plain false indent start fuel gap (placed m (cs ++ rest)) =
      .ok (gap.text ++ cs, broken, placed m' tail) := by
  induction words generalizing m fuel gap with
  | @word w word =>
    obtain ⟨fuel, rfl⟩ := Nat.exists_eq_succ_of_ne_zero (Nat.ne_of_gt (Nat.zero_lt_of_lt enough))
    cases ends with
    | @colon cs blank =>
      have stop : WordEnd (':' :: cs) := Or.inr ⟨cs, rfl, blank⟩
      rw [plain_word word comment inside stop]
      rfl
    | @line n cs solid less =>
      have stop : WordEnd ('\n' :: spaces n ++ tail) := Or.inl (show isBlankOrEnd '\n' by decide)
      have column : ((m.past w).past ('\n' :: spaces n)).column = n :=
        column_past_indentation (m.past w) (List.forall_mem_singleton.mpr rfl)
          (List.cons_ne_nil '\n' []) n
      rw [plain_word word comment inside stop, Gap.read_line solid]
      simp only [bind, Except.bind, Text.column_placed, column, less, if_true]
      rfl
  | @more w n cs word comment' words ih =>
    obtain ⟨fuel, rfl⟩ := Nat.exists_eq_succ_of_ne_zero (Nat.ne_of_gt (Nat.zero_lt_of_lt enough))
    have stop : WordEnd (spaces (n + 1) ++ (cs ++ rest)) := Or.inl (show isBlankOrEnd ' ' by decide)
    have first : w.head? ≠ some '#' := by
      cases w with
      | nil => exact absurd rfl word.nonempty
      | cons c w => exact comment
    have column : ((m.past w).past (spaces (n + 1))).column = m.column + w.length + (n + 1) := by
      rw [column_past_spaces, word.column_past]
    have shorter : cs.length < fuel := by
      simp only [List.length_append, spaces, List.length_replicate] at enough
      omega
    rw [Mark.past_append, Mark.past_append] at ends
    have further : ((m.past w).past (spaces (n + 1))).column ≠ 0 := by omega
    have onward := ih comment' (Text.atDocumentMarker_of_column further) (by omega) ends shorter
      ⟨spaces (n + 1), [], false⟩
    have inner : ¬ ((m.past w).past (spaces (n + 1))).column < indent := by omega
    rw [List.append_assoc, List.append_assoc] at inside ⊢
    rw [plain_word word first inside stop,
      Gap.read_spaces words.solid]
    simp only [bind, Except.bind, Text.column_placed, inner, if_false, onward, Gap.text_blanks]
    simp [spaces_succ, isBlank, pure, Except.pure]

/-- A character goes on a word, or starts one in front of blanks. -/
theorem PlainWords.cons {c : Char} {cs : List Char} (dense : isBlankOrEnd c = false)
    (words : PlainWords cs) : PlainWords (c :: cs) := by
  have longer : ∀ w, IsWord w → IsWord (c :: w) := by
    intro w word
    refine ⟨List.cons_ne_nil c w, ?_, ?_⟩
    · intro d hd
      rcases List.mem_cons.mp hd with rfl | hd
      · exact dense
      · exact word.dense d hd
    · rw [List.getLast?_cons_of_ne_nil word.nonempty]
      exact word.last
  cases words with
  | word h => exact .word (longer _ h)
  | more h comment words => exact .more (longer _ h) comment words

theorem isWord_singleton {c : Char} (dense : isBlankOrEnd c = false) (colon : c ≠ ':') :
    IsWord [c] :=
  ⟨List.cons_ne_nil c [], fun d hd => by rw [List.mem_singleton.mp hd]; exact dense,
    by simpa using colon⟩

end Token

open Write Token

/-- A text that can be written plain. -/
structure PlainText (cs : List Char) : Prop where
  words : PlainWords cs
  printable : ∀ c ∈ cs, isPrintable c
  starts : ∃ c rest, cs = c :: rest ∧ isOpening c = false ∧
    (c = '?' ∨ c = ':' ∨ c = '-' → isBlankOrEnd (rest.headD endOfText) = false)
  marker : isMarkerLine cs = false

theorem isBlankOrEnd_of_not_spaceOrEnd {c : Char} (h : isSpaceOrEnd c = false) :
    isBlankOrEnd c = false := by
  simp only [isSpaceOrEnd, isLineBreak, isBlankOrEnd, Bool.or_eq_false_iff] at h ⊢
  exact ⟨⟨h.1.1, h.1.2.1.1⟩, h.2⟩

/-- The character in front of what follows some blanks. -/
theorem hasIndicator_spaces {before : Char} {n : Nat} {cs : List Char}
    (h : hasIndicator false before (spaces n ++ cs) = false) :
    hasIndicator false (if n = 0 then before else ' ') cs = false := by
  induction n generalizing before with
  | zero => exact h
  | succ n ih =>
    rw [spaces_succ, List.cons_append, hasIndicator, Bool.or_eq_false_iff] at h
    have rest := ih h.2
    rw [if_neg (Nat.succ_ne_zero n)]
    split at rest <;> exact rest

/-- Without indicators a text is made of words. -/
theorem plainWords_of_noIndicator {c : Char} {cs : List Char}
    (dense : ∀ d ∈ c :: cs, d = ' ' ∨ isSpaceOrEnd d = false) (solid : c ≠ ' ')
    (last : (c :: cs).getLast? ≠ some ' ')
    (colon : c = ':' → isSpaceOrEnd (cs.headD endOfText) = false)
    (flowing : hasIndicator false c cs = false) : PlainWords (c :: cs) := by
  have denseFirst : isBlankOrEnd c = false :=
    isBlankOrEnd_of_not_spaceOrEnd ((dense c List.mem_cons_self).resolve_left solid)
  obtain ⟨n, rest, hcs, next⟩ := exists_spaces cs
  cases rest with
  | nil =>
    rw [List.append_nil] at hcs
    subst hcs
    cases n with
    | zero =>
      refine .word (isWord_singleton denseFirst fun h => ?_)
      exact absurd (colon h) (by decide)
    | succ n =>
      refine absurd ?_ last
      rw [spaces, List.replicate_succ', ← List.cons_append, List.getLast?_concat]
  | cons d rest =>
    have flow := hasIndicator_spaces (hcs ▸ flowing)
    rw [hasIndicator, Bool.or_eq_false_iff] at flow
    simp only [isIndicatorAt, Bool.false_eq_true, if_false, Bool.or_eq_false_iff] at flow
    obtain ⟨⟨colon', comment⟩, flow⟩ := flow
    have shorter : rest.length < cs.length := by
      rw [hcs, List.length_append, List.length_cons]
      omega
    have words : PlainWords (d :: rest) := by
      refine plainWords_of_noIndicator (fun x hx => ?_) (by simpa using next) ?_ ?_ flow
      · exact dense x (List.mem_cons_of_mem c (hcs ▸ List.mem_append_right _ hx))
      · rw [hcs, ← List.cons_append, List.getLast?_append] at last
        intro blank
        rw [blank] at last
        exact last rfl
      · rintro rfl
        simpa using colon'
    rw [hcs]
    rw [hcs] at colon
    cases n with
    | zero => exact words.cons denseFirst
    | succ n =>
      refine .more (w := [c]) (isWord_singleton denseFirst fun h => ?_) ?_ words
      · have blank : isSpaceOrEnd ' ' = false := colon h
        exact absurd blank (by decide)
      · rintro h
        obtain rfl : d = '#' := by simpa using h
        rw [if_neg (Nat.succ_ne_zero n)] at comment
        exact absurd comment (by decide)
termination_by cs.length
decreasing_by exact shorter

theorem isPrintable_not_end {c : Char} (h : isPrintable c) : isEnd c = false := by
  rw [isEnd, beq_eq_false_iff_ne]
  rintro rfl
  exact absurd h (by decide)

theorem isPrintable_not_tab {c : Char} (h : isPrintable c) : (c == '\t') = false := by
  rw [beq_eq_false_iff_ne]
  rintro rfl
  exact absurd h (by decide)

theorem plainText_of_allowsPlain {cs : List Char} (nonempty : cs ≠ []) (allowed : allowsPlain cs) :
    PlainText cs := by
  simp only [allowsPlain, Bool.not_eq_true', Bool.or_eq_false_iff] at allowed
  obtain ⟨⟨⟨⟨⟨first, last⟩, breaks⟩, marker⟩, indicator⟩, printable⟩ := allowed
  have printable : ∀ c ∈ cs, isPrintable c := by simpa using printable
  have unbroken : ∀ c ∈ cs, isLineBreak c = false := by simpa using breaks
  have dense : ∀ c ∈ cs, c = ' ' ∨ isSpaceOrEnd c = false := by
    intro c hc
    have noEnd := isPrintable_not_end (printable c hc)
    have noTab := isPrintable_not_tab (printable c hc)
    by_cases blank : c = ' '
    · exact Or.inl blank
    · right
      simp [isSpaceOrEnd, isBlank, unbroken c hc, noEnd, noTab, blank]
  cases cs with
  | nil => exact absurd rfl nonempty
  | cons c cs =>
    rw [hasIndicator, Bool.or_eq_false_iff] at indicator
    obtain ⟨opening, flowing⟩ := indicator
    simp only [isIndicatorAt, if_true, Bool.or_eq_false_iff] at opening
    obtain ⟨opening, before⟩ := opening
    have solid : c ≠ ' ' := by
      rintro rfl
      cases first
    refine ⟨plainWords_of_noIndicator dense solid ?_ ?_ flowing, printable, ⟨c, cs, rfl, opening, ?_⟩,
      marker⟩
    · intro h
      rw [h] at last
      exact absurd last (by decide)
    · rintro rfl
      simpa using before
    · rintro h
      have special : (c == '?' || c == ':' || c == '-') = true := by
        rcases h with rfl | rfl | rfl <;> decide
      rw [special, Bool.true_and] at before
      exact isBlankOrEnd_of_not_spaceOrEnd before

end Questionnaire.Yaml
