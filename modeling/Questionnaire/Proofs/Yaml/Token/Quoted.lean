import Questionnaire.Proofs.Text.Digits
import Questionnaire.Proofs.Yaml.Token.Plain

/-!
Quoted scalars read back. In single quotes a quote is doubled and the lines behind a break are
indented; a reader drops the blanks around a break, and there are none of the text's own
(`singleQuoted_placed`). In double quotes everything but printable text is escaped, breaks included,
so the scalar stays on its line (`doubleQuoted_placed`).
-/
namespace Questionnaire.Yaml
open Yaml.Text (placed)
open Write

theorem exists_run {α : Type} (p : α → Bool) (xs : List α) : ∃ run rest, xs = run ++ rest ∧
    (∀ x ∈ run, p x) ∧ ∀ y, rest.head? = some y → p y = false := by
  induction xs with
  | nil => exact ⟨[], [], rfl, by simp, by simp⟩
  | cons x xs ih =>
    cases h : p x with
    | true =>
      obtain ⟨run, rest, rfl, all, stop⟩ := ih
      refine ⟨x :: run, rest, rfl, fun y hy => ?_, stop⟩
      rcases List.mem_cons.mp hy with rfl | hy
      · exact h
      · exact all y hy
    | false => exact ⟨[], x :: xs, rfl, by simp, by simpa using h⟩

/-- A text cut into runs of blanks, runs of breaks and other characters. -/
inductive Runs : List Char → Prop
  | nil : Runs []
  | blanks {n : Nat} {cs : List Char} : cs.head? ≠ some ' ' → Runs cs → Runs (spaces (n + 1) ++ cs)
  | breaks {run cs : List Char} : run ≠ [] → (∀ c ∈ run, isLineBreak c) →
      (∀ c, cs.head? = some c → isLineBreak c = false) → Runs cs → Runs (run ++ cs)
  | char {c : Char} {cs : List Char} : c ≠ ' ' → isLineBreak c = false → Runs cs → Runs (c :: cs)

theorem runs (cs : List Char) : Runs cs := by
  induction length : cs.length using Nat.strongRecOn generalizing cs with
  | ind k ih =>
    subst length
    cases cs with
    | nil => exact .nil
    | cons c cs =>
      by_cases blank : c = ' '
      · subst blank
        obtain ⟨n, rest, rfl, next⟩ := exists_spaces cs
        have shorter : rest.length < (' ' :: (spaces n ++ rest)).length := by
          rw [List.length_cons, List.length_append]
          omega
        exact .blanks (n := n) next (ih _ shorter rest rfl)
      · by_cases broken : isLineBreak c
        · obtain ⟨run, rest, rfl, breaks, stop⟩ := exists_run isLineBreak cs
          have shorter : rest.length < (c :: (run ++ rest)).length := by
            rw [List.length_cons, List.length_append]
            omega
          show Runs ((c :: run) ++ rest)
          refine .breaks (List.cons_ne_nil c run) (fun d hd => ?_) stop
            (ih _ shorter rest rfl)
          rcases List.mem_cons.mp hd with rfl | hd
          · exact broken
          · exact breaks d hd
        · exact .char blank (by simpa using broken) (ih _ (by simp) cs rfl)

namespace Write

theorem hasPair_append {p q : Char → Bool} {xs ys : List Char}
    (h : hasPair p q (xs ++ ys) = false) :
    hasPair p q ys = false := by
  induction xs with
  | nil => exact h
  | cons x xs ih =>
    refine ih ?_
    cases hxs : xs ++ ys with
    | nil => rfl
    | cons y zs =>
      rw [List.cons_append, hxs, hasPair, Bool.or_eq_false_iff] at h
      exact h.2

theorem not_hasPair {p q : Char → Bool} {xs ys : List Char} {c d : Char}
    (h : hasPair p q (xs ++ c :: d :: ys) = false) (hc : p c) : q d = false := by
  have tail := hasPair_append h
  rw [hasPair, Bool.or_eq_false_iff, hc, Bool.true_and] at tail
  exact tail.1

/-- The indentation in front of a line, if the text is at its start. -/
theorem indented_start {indent : Nat} {quotes : Bool} {cs : List Char}
    (text : ∀ c, cs.head? = some c → isLineBreak c = false) :
    indented indent quotes true true cs =
      spaces indent ++ indented indent quotes true false cs := by
  cases cs with
  | nil => simp [indented, spaces]
  | cons c cs =>
    have unbroken := text c rfl
    simp [indented, unbroken, spaces]

theorem indented_run {indent : Nat} {quotes close atStart : Bool} {run cs : List Char}
    (breaks : ∀ c ∈ run, isLineBreak c) (nonempty : run ≠ []) :
    indented indent quotes close atStart (run ++ cs) =
      run ++ indented indent quotes close true cs := by
  induction run generalizing atStart with
  | nil => exact absurd rfl nonempty
  | cons c run ih =>
    rw [List.cons_append, indented, if_pos (breaks c List.mem_cons_self)]
    cases run with
    | nil => rfl
    | cons d run =>
      rw [ih (fun x hx => breaks x (List.mem_cons_of_mem c hx)) (List.cons_ne_nil d run)]
      rfl

theorem isBreak_of_isLineBreak {c : Char} (printable : isPrintable c) (h : isLineBreak c) :
    isBreak c := by
  simp only [isLineBreak, Bool.or_eq_true, beq_iff_eq] at h
  rcases h with (h | rfl) | rfl
  · exact h
  · exact absurd printable (by decide)
  · exact absurd printable (by decide)

theorem isEnd_of_isBreak {c : Char} (h : isBreak c) : isEnd c = false := by
  simp only [isBreak, Bool.or_eq_true, beq_iff_eq] at h
  rcases h with (rfl | rfl) | rfl <;> decide

theorem isBreak_eq_false {c : Char} (h : isLineBreak c = false) : isBreak c = false := by
  simp only [isLineBreak, Bool.or_eq_false_iff] at h
  exact h.1.1

end Write

namespace Token
variable {start m : Mark} {fuel : Nat}

theorem Gap.text_breaks {breaks : List Char} (other : breaks.head? ≠ some '\n') :
    Gap.text ⟨[], breaks, true⟩ = breaks := by
  simp only [Gap.text, Bool.not_true, Bool.false_eq_true, if_false]
  split
  · exact absurd rfl other
  · exact absurd rfl other
  · rfl

/-- Line breaks other than line feeds, and the indentation of the next line. -/
theorem Gap.read_breaks {run cs : List Char} {k indent : Nat} (breaks : ∀ c ∈ run, isBreak c)
    (nonempty : run ≠ []) (solid : Solid cs) :
    Gap.read indent start false (placed m (run ++ (spaces k ++ cs))) =
      .ok (⟨[], run, true⟩, placed (m.past (run ++ spaces k)) cs) := by
  have mixed : ∀ c ∈ run ++ spaces k, c = ' ' ∨ isBreak c := by
    intro c hc
    rcases List.mem_append.mp hc with hc | hc
    · exact Or.inr (breaks c hc)
    · exact Or.inl (mem_spaces hc)
  have unbroken : ∀ c ∈ spaces k, ¬ isBreak c = true := by
    intro c hc
    rw [mem_spaces hc]
    decide
  rw [← List.append_assoc, Gap.read_placed mixed solid]
  have filtered : (run ++ spaces k).filter isBreak = run := by
    rw [List.filter_append, List.filter_eq_self.mpr breaks, List.filter_eq_nil_iff.mpr unbroken,
      List.append_nil]
  cases run with
  | nil => exact absurd rfl nonempty
  | cons c run =>
    have first := breaks c List.mem_cons_self
    have dense : isBlank c = false := by
      simp only [isBreak, Bool.or_eq_true, beq_iff_eq] at first
      rcases first with (rfl | rfl) | rfl <;> decide
    rw [filtered]
    simp [dense, first]

/-- One round of a quoted scalar whose end is not reached. -/
theorem quoted_round {single : Bool} {c : Char} {cs : List Char} (inside : m.column ≠ 0)
    (noEnd : isEnd c = false)
    (more : (c == (if single then '\'' else '"') &&
      !(single && (cs.headD endOfText) == '\'')) = false) :
    quoted single start (fuel + 1) (placed m (c :: cs)) = (do
      let (read, t) ←
        if isBlank c || isBreak c then
          (Gap.read 0 start false (placed m (c :: cs))).map fun (gap, t) => (gap.text, t)
        else if single && c == '\'' then pure ([c], (placed m (c :: cs)).drop 2)
        else if !single && c == '\\' && isBreak (cs.headD endOfText) then
          (Gap.read 0 start true ((placed m (c :: cs)).drop 2)).map
            fun (gap, t) => (gap.text true, t)
        else if !single && c == '\\' then
          (escape start (placed m (c :: cs))).map fun (r, t) => ([r], t)
        else pure ([c], placed (m.step c) cs)
      let (more, t) ← quoted single start fuel t
      return (read ++ more, t)) := by
  rw [quoted, Text.atDocumentMarker_of_column inside]
  simp only [Text.peekAt_succ, Text.peekAt_zero, Text.peek_placed, List.headD_cons, noEnd, more,
    Bool.false_eq_true, if_false, Text.drop_placed]

section Rounds
variable {single : Bool} {tail cs : List Char} {t : Yaml.Text}

/-- A run of blanks is one gap. -/
theorem quoted_spaces {n : Nat} (inside : m.column ≠ 0) (solid : Solid tail)
    (onward : quoted single start fuel (placed (m.past (spaces (n + 1))) tail) = .ok (cs, t)) :
    quoted single start (fuel + 1) (placed m (spaces (n + 1) ++ tail)) =
      .ok (spaces (n + 1) ++ cs, t) := by
  have gap : (isBlank ' ' || isBreak ' ') = true := by decide
  have noQuote : (' ' == if single then '\'' else '"') = false := by cases single <;> decide
  rw [spaces_succ, List.cons_append, quoted_round inside (by decide) (by rw [noQuote]; rfl),
    if_pos gap, ← List.cons_append, ← spaces_succ, Gap.read_spaces solid]
  simp only [Except.map, bind, Except.bind, Gap.text_blanks, onward, pure, Except.pure]

/-- So is a run of breaks, with the indentation behind it. -/
theorem quoted_breaks {run : List Char} {k : Nat} (inside : m.column ≠ 0) (nonempty : run ≠ [])
    (breaks : ∀ c ∈ run, isBreak c) (noFeed : run.head? ≠ some '\n') (solid : Solid tail)
    (onward : quoted single start fuel (placed (m.past (run ++ spaces k)) tail) = .ok (cs, t)) :
    quoted single start (fuel + 1) (placed m (run ++ (spaces k ++ tail))) =
      .ok (run ++ cs, t) := by
  obtain ⟨c, more, rfl⟩ := List.exists_cons_of_ne_nil nonempty
  have broken := breaks c List.mem_cons_self
  have gap : (isBlank c || isBreak c) = true := by rw [broken, Bool.or_true]
  have noQuote : (c == if single then '\'' else '"') = false := by
    rw [beq_eq_false_iff_ne]
    rintro rfl
    cases single <;> exact absurd broken (by decide)
  rw [List.cons_append, quoted_round inside (isEnd_of_isBreak broken) (by rw [noQuote]; rfl),
    if_pos gap, ← List.cons_append, Gap.read_breaks breaks nonempty solid]
  simp only [Except.map, bind, Except.bind, Gap.text_breaks noFeed, onward, pure, Except.pure]

/-- A quote is doubled in single quotes. -/
theorem quoted_doubled (inside : m.column ≠ 0)
    (onward : quoted true start fuel (placed (m.past ['\'', '\'']) tail) = .ok (cs, t)) :
    quoted true start (fuel + 1) (placed m ('\'' :: '\'' :: tail)) = .ok ('\'' :: cs, t) := by
  have dense : (isBlank '\'' || isBreak '\'') = false := by decide
  have dropped : (placed m ('\'' :: '\'' :: tail)).drop 2 = placed (m.past ['\'', '\'']) tail := rfl
  rw [quoted_round inside (by decide) (by simp), dense, dropped]
  simp only [Bool.false_eq_true, if_false, Bool.true_and, beq_self_eq_true, if_true,
    onward, bind, Except.bind, pure, Except.pure, List.singleton_append]

/-- A character that is no gap, no quote and no backslash in double quotes stands for itself. -/
theorem quoted_itself {c : Char} (inside : m.column ≠ 0) (dense : (isBlank c || isBreak c) = false)
    (noEnd : isEnd c = false) (noQuote : (c == if single then '\'' else '"') = false)
    (noEscape : (!single && c == '\\') = false)
    (onward : quoted single start fuel (placed (m.step c) tail) = .ok (cs, t)) :
    quoted single start (fuel + 1) (placed m (c :: tail)) = .ok (c :: cs, t) := by
  have noDouble : (single && c == '\'') = false := by
    cases single with
    | false => rfl
    | true => exact noQuote
  rw [quoted_round inside noEnd (by rw [noQuote]; rfl), dense, noDouble, noEscape]
  simp only [Bool.false_eq_true, if_false, Bool.false_and, bind, Except.bind, onward, pure,
    Except.pure, List.singleton_append]

end Rounds

theorem quoted_close {single : Bool} {rest : List Char} (inside : m.column ≠ 0)
    (closed : rest.head? ≠ some '\'') :
    quoted single start (fuel + 1) (placed m ((if single then '\'' else '"') :: rest)) =
      .ok ([], placed (m.step (if single then '\'' else '"')) rest) := by
  have last : (rest.headD endOfText == '\'') = false := by
    cases rest with
    | nil => rfl
    | cons c rest => simpa using closed
  have noEnd : isEnd (if single then '\'' else '"') = false := by cases single <;> decide
  rw [quoted, Text.atDocumentMarker_of_column inside]
  simp only [Text.peekAt_succ, Text.peekAt_zero, Text.peek_placed, List.headD_cons, noEnd, last,
    Bool.false_eq_true, if_false, Bool.and_false, Bool.not_false, Bool.and_true, beq_self_eq_true,
    if_true, Text.drop_placed]

theorem indented_spaces {indent n : Nat} {cs : List Char} :
    indented indent true true false (spaces n ++ cs) =
      spaces n ++ indented indent true true false cs := by
  induction n with
  | zero => rfl
  | succ n ih =>
    have unbroken : isLineBreak ' ' = false := by decide
    rw [spaces_succ, List.cons_append, indented, unbroken, ih]
    rfl

/-- Text on a line goes on with a character of its own, or with the closing quote. -/
theorem solid_indented {indent : Nat} {cs rest : List Char} (printable : ∀ c ∈ cs, isPrintable c)
    (blank : cs.head? ≠ some ' ') (unbroken : ∀ c, cs.head? = some c → isLineBreak c = false) :
    Solid (indented indent true true false cs ++ '\'' :: rest) := by
  cases cs with
  | nil => exact .cons (by decide) (by decide)
  | cons c cs =>
    have unbroken := unbroken c rfl
    have noTab := isPrintable_not_tab (printable c List.mem_cons_self)
    have dense : isBlank c = false := by
      have other : c ≠ ' ' := by simpa using blank
      simp [isBlank, noTab, other]
    rw [indented, unbroken]
    by_cases quote : c = '\''
    · subst quote
      exact .cons (by decide) (by decide)
    · have single : (c == '\'') = false := by simpa using quote
      rw [single]
      exact .cons dense (isBreak_eq_false unbroken)

/-- Text that can be written in single quotes. -/
structure SingleText (cs : List Char) : Prop where
  printable : ∀ c ∈ cs, isPrintable c
  noFeed : '\n' ∉ cs
  before : hasPair isSpace isLineBreak cs = false
  behind : hasPair isLineBreak isSpace cs = false

theorem SingleText.suffix {xs ys : List Char} (h : SingleText (xs ++ ys)) : SingleText ys :=
  ⟨fun c hc => h.printable c (List.mem_append_right xs hc),
    fun hc => h.noFeed (List.mem_append_right xs hc), hasPair_append h.before,
    hasPair_append h.behind⟩

/-- There are no breaks behind blanks. -/
theorem SingleText.unbroken_of_spaces {n : Nat} {cs : List Char}
    (text : SingleText (spaces (n + 1) ++ cs)) :
    ∀ d, cs.head? = some d → isLineBreak d = false := by
  cases cs with
  | nil => simp
  | cons d cs =>
    intro e he
    cases he
    have pair := text.before
    rw [spaces, List.replicate_succ', List.append_assoc] at pair
    exact not_hasPair pair (by decide)

/-- There are no blanks behind breaks. -/
theorem SingleText.head?_of_breaks {run cs : List Char} (text : SingleText (run ++ cs))
    (breaks : ∀ c ∈ run, isLineBreak c) (nonempty : run ≠ []) : cs.head? ≠ some ' ' := by
  rcases List.eq_nil_or_concat run with rfl | ⟨more, c, rfl⟩
  · exact absurd rfl nonempty
  · cases cs with
    | nil => exact fun h => nomatch h
    | cons d cs =>
      intro h
      cases h
      have pair := text.behind
      rw [List.concat_eq_append, List.append_assoc] at pair
      have broken := breaks c (by simp)
      exact absurd (not_hasPair pair broken) (by decide)

theorem singleQuoted_placed {cs rest : List Char} {indent : Nat} (text : SingleText cs)
    (lines : (∃ c ∈ cs, isLineBreak c) → 0 < indent) (inside : m.column ≠ 0)
    (closed : rest.head? ≠ some '\'')
    (enough : (indented indent true true false cs).length < fuel) :
    quoted true start fuel (placed m (indented indent true true false cs ++ '\'' :: rest)) =
      .ok (cs, placed (m.past (indented indent true true false cs ++ ['\''])) rest) := by
  -- Each run takes one round. Behind breaks the column is that of the indentation.
  induction runs cs generalizing m fuel with
  | nil =>
    obtain ⟨fuel, rfl⟩ := Nat.exists_eq_succ_of_ne_zero (Nat.ne_of_gt (Nat.zero_lt_of_lt enough))
    exact quoted_close inside closed
  | @blanks n cs next _ ih =>
    obtain ⟨fuel, rfl⟩ := Nat.exists_eq_succ_of_ne_zero (Nat.ne_of_gt (Nat.zero_lt_of_lt enough))
    have solid : Solid (indented indent true true false cs ++ '\'' :: rest) :=
      solid_indented text.suffix.printable next text.unbroken_of_spaces
    have column := column_past_spaces m (n + 1)
    rw [indented_spaces, List.length_append, spaces, List.length_replicate] at enough
    rw [indented_spaces, List.append_assoc, List.append_assoc, Mark.past_append]
    exact quoted_spaces inside solid (ih text.suffix
      (fun broken => lines (broken.imp fun d h => ⟨List.mem_append_right _ h.1, h.2⟩))
      (by omega) (by omega))
  | @breaks run cs nonempty breaks stop _ ih =>
    obtain ⟨fuel, rfl⟩ := Nat.exists_eq_succ_of_ne_zero (Nat.ne_of_gt (Nat.zero_lt_of_lt enough))
    have hbreak : ∀ d ∈ run, isBreak d := fun d hd =>
      isBreak_of_isLineBreak (text.printable d (List.mem_append_left _ hd)) (breaks d hd)
    have solid : Solid (indented indent true true false cs ++ '\'' :: rest) :=
      solid_indented text.suffix.printable (text.head?_of_breaks breaks nonempty) stop
    have noFeed : run.head? ≠ some '\n' := fun feed =>
      text.noFeed (List.mem_append_left _ (List.mem_of_head? feed))
    have column := column_past_indentation m hbreak nonempty indent
    have positive : 0 < indent := by
      obtain ⟨c, hc⟩ := List.exists_mem_of_ne_nil run nonempty
      exact lines ⟨c, List.mem_append_left _ hc, breaks c hc⟩
    have past_line (xs : List Char) : m.past (run ++ (spaces indent ++ xs)) =
        (m.past (run ++ spaces indent)).past xs := by
      rw [← List.append_assoc, Mark.past_append]
    have size := List.length_pos_iff.mpr nonempty
    rw [indented_run breaks nonempty, indented_start stop] at enough ⊢
    simp only [List.length_append] at enough
    simp only [List.append_assoc]
    rw [past_line]
    exact quoted_breaks inside nonempty hbreak noFeed solid (ih text.suffix
      (fun broken => lines (broken.imp fun d h => ⟨List.mem_append_right _ h.1, h.2⟩))
      (by omega) (by omega))
  | @char c cs blank unbroken _ ih =>
    obtain ⟨fuel, rfl⟩ := Nat.exists_eq_succ_of_ne_zero (Nat.ne_of_gt (Nat.zero_lt_of_lt enough))
    have printable := text.printable c List.mem_cons_self
    have dense : (isBlank c || isBreak c) = false := by
      have noTab := isPrintable_not_tab printable
      simp [isBlank, noTab, blank, isBreak_eq_false unbroken]
    have suffix : SingleText cs := SingleText.suffix (show SingleText ([c] ++ cs) from text)
    have lines' : (∃ d ∈ cs, isLineBreak d) → 0 < indent :=
      fun broken => lines (broken.imp fun d h => ⟨List.mem_cons_of_mem c h.1, h.2⟩)
    have line : (m.step c).column = m.column + 1 := Mark.column_step (isBreak_eq_false unbroken)
    by_cases quote : c = '\''
    · subst quote
      have written : indented indent true true false ('\'' :: cs) =
          '\'' :: '\'' :: indented indent true true false cs := by simp [indented, unbroken]
      have twice : (m.past ['\'', '\'']).column = m.column + 2 := by
        rw [Mark.past_cons, Mark.past_cons, Mark.past_nil, Mark.column_step (by decide), line]
      rw [written] at enough ⊢
      simp only [List.length_cons] at enough
      exact quoted_doubled inside (ih suffix lines' (by omega) (by omega))
    · have single : (c == '\'') = false := by simpa using quote
      have written : indented indent true true false (c :: cs) =
          c :: indented indent true true false cs := by simp [indented, unbroken, single]
      rw [written] at enough ⊢
      rw [List.length_cons] at enough
      exact quoted_itself inside dense (isPrintable_not_end printable) single rfl
        (ih suffix lines' (by omega) (by omega))

/-! Escapes. -/

theorem take_placed (cs ds : List Char) :
    ((placed m (cs ++ ds)).take cs.length).map (·.char) = cs := by
  induction cs generalizing m with
  | nil => rfl
  | cons c cs ih =>
    rw [List.cons_append, placed, List.length_cons, List.take_succ_cons, List.map_cons, ih]

theorem drop_placed (cs ds : List Char) :
    (placed m (cs ++ ds)).drop cs.length = placed (m.past cs) ds := by
  induction cs generalizing m with
  | nil => rfl
  | cons c cs ih => exact ih

theorem length_hexText {width n : Nat} (fits : (Nat.toDigits 16 n).length ≤ width) :
    (hexText width n).length = width := by
  simp only [hexText, List.length_append, List.length_replicate, List.length_map]
  omega

theorem natOfDigits?_hexText (width n : Nat) : natOfDigits? 16 (hexText width n) = some n := by
  rw [hexText, natOfDigits?_zeros (by decide) _ (by simp [Nat.toDigits_ne_nil])]
  exact natOfDigits?_toDigits (by decide) (by decide) n

/-- An escape of one letter. -/
theorem escape_simple {e c : Char} (simple : simpleEscape? e = some c) (rest : List Char) :
    escape start (placed m ('\\' :: e :: rest)) = .ok (c, placed (m.past ['\\', e]) rest) := by
  simp only [escape, Text.peekAt_succ, Text.peekAt_zero, Text.peek_cons, simple]
  rfl

/-- An escape of a character by its number. -/
theorem escape_hex {e c : Char} {width : Nat} (other : simpleEscape? e = none)
    (digits : escapeDigits? e = some width) (fits : (Nat.toDigits 16 c.toNat).length ≤ width)
    (rest : List Char) :
    escape start (placed m ('\\' :: e :: (hexText width c.toNat ++ rest))) =
      .ok (c, placed (m.past ('\\' :: e :: hexText width c.toNat)) rest) := by
  have number : hexNumber? width
      ((placed m ('\\' :: e :: (hexText width c.toNat ++ rest))).drop 2) = some c.toNat := by
    have taken := take_placed (m := (m.step '\\').step e) (hexText width c.toNat) rest
    rw [length_hexText fits] at taken
    rw [hexNumber?]
    simp only [placed, List.drop_succ_cons, List.drop_zero, taken, natOfDigits?_hexText]
  have dropped := drop_placed (m := (m.step '\\').step e) (hexText width c.toNat) rest
  rw [length_hexText fits] at dropped
  have valid : c.toNat.isValidChar := c.valid
  rw [escape]
  rw [Text.peekAt_succ, Text.peekAt_zero, Text.peek_cons, other, digits]
  dsimp only
  rw [number]
  dsimp only
  rw [dif_pos valid]
  exact congrArg (fun t => Except.ok (c, t)) dropped

/-- What an escape of a character does. -/
structure Escape (c : Char) (written : List Char) : Prop where
  shape : ∃ e tail, written = '\\' :: e :: tail ∧ isBreak e = false
  unbroken : ∀ d ∈ written, isBreak d = false
  reads : ∀ start m rest, escape start (placed m (written ++ rest)) =
    .ok (c, placed (m.past written) rest)

theorem Escape.simple {e c : Char} (simple : simpleEscape? e = some c)
    (unbroken : isBreak e = false) :
    Escape c ['\\', e] := by
  refine ⟨⟨e, [], rfl, unbroken⟩, fun d hd => ?_, fun start m rest => escape_simple simple rest⟩
  rcases List.mem_cons.mp hd with rfl | hd
  · decide
  · rw [List.mem_singleton.mp hd]
    exact unbroken

theorem isBreak_hexText {width n : Nat} : ∀ d ∈ hexText width n, isBreak d = false := by
  have digits : ∀ d < 16, isBreak (Nat.digitChar d).toUpper = false := by decide
  intro d hd
  rcases List.mem_append.mp hd with hd | hd
  · rw [List.eq_of_mem_replicate hd]
    decide
  · obtain ⟨e, he, rfl⟩ := List.mem_map.mp hd
    obtain ⟨k, hk, rfl⟩ := exists_digit_of_mem_toDigits (by decide) he
    exact digits k hk

theorem Escape.hex {e c : Char} {width : Nat} (other : simpleEscape? e = none)
    (digits : escapeDigits? e = some width) (fits : (Nat.toDigits 16 c.toNat).length ≤ width)
    (unbroken : isBreak e = false) : Escape c ('\\' :: e :: hexText width c.toNat) := by
  refine ⟨⟨e, _, rfl, unbroken⟩, fun d hd => ?_, fun start m rest => ?_⟩
  · rcases List.mem_cons.mp hd with rfl | hd
    · decide
    · rcases List.mem_cons.mp hd with rfl | hd
      · exact unbroken
      · exact isBreak_hexText d hd
  · exact escape_hex other digits fits rest

/-- A character that is not written as it is has an escape. -/
theorem escape_escaped {c : Char}
    (special : (isPrintable c && !isBreak c) = false ∨ c = '"' ∨ c = '\\') :
    Escape c (escaped c) := by
  by_cases quote : c = '"' ∨ c = '\\'
  · rcases quote with rfl | rfl
    · exact .simple (by decide) (by decide)
    · exact .simple (by decide) (by decide)
  · have hidden := special.resolve_right quote
    have noQuote : (c == '"' || c == '\\') = false := by simpa using quote
    have known : ∀ n, c.toNat = n → c = Char.ofNat n := by
      rintro n rfl
      rw [Char.ofNat_toNat]
    rw [escaped, noQuote, hidden]
    simp only [Bool.false_eq_true, if_false]
    split
    all_goals try (rename_i h; rw [known _ h]; exact .simple (by decide) (by decide))
    have valid := c.valid
    simp only [UInt32.isValidChar, Nat.isValidChar] at valid
    have same : c.toNat = c.val.toNat := rfl
    have fits (width : Nat) (positive : 0 < width) := Nat.length_toDigits_le_iff
      (n := c.toNat) (b := 16) (by decide) positive
    split
    · exact .hex (by decide) (by decide) ((fits 2 (by decide)).mpr (by omega)) (by decide)
    · split
      · exact .hex (by decide) (by decide) ((fits 4 (by decide)).mpr (by omega)) (by decide)
      · exact .hex (by decide) (by decide) ((fits 8 (by decide)).mpr (by omega)) (by decide)

/-- A character that is written as it is in double quotes. -/
structure Raw (c : Char) : Prop where
  written : escaped c = [c]
  printable : isPrintable c
  unbroken : isBreak c = false
  noQuote : (c == '"') = false
  noEscape : (c == '\\') = false

theorem escape_or_raw (c : Char) : Escape c (escaped c) ∨ Raw c := by
  by_cases special : (isPrintable c && !isBreak c) = false ∨ c = '"' ∨ c = '\\'
  · exact Or.inl (escape_escaped special)
  · obtain ⟨plain, quote⟩ := not_or.mp special
    obtain ⟨noQuote, noEscape⟩ := not_or.mp quote
    have raw : (isPrintable c && !isBreak c) = true := by simpa using plain
    have printed := Bool.and_eq_true _ _ ▸ raw
    refine Or.inr ⟨?_, printed.1, by simpa using printed.2, by simpa using noQuote,
      by simpa using noEscape⟩
    rw [escaped, raw]
    simp [noQuote, noEscape]

/-- Escaped text starts with a character that is no blank and no break. -/
theorem solid_escaped {cs rest : List Char} (blank : cs.head? ≠ some ' ') :
    Solid (cs.flatMap escaped ++ '"' :: rest) := by
  cases cs with
  | nil => exact .cons (by decide) (by decide)
  | cons c cs =>
    rw [List.flatMap_cons, List.append_assoc]
    rcases escape_or_raw c with special | raw
    · obtain ⟨e, tail, shape, _⟩ := special.shape
      rw [shape]
      exact .cons (by decide) (by decide)
    · have noTab := isPrintable_not_tab raw.printable
      have other : c ≠ ' ' := by simpa using blank
      rw [raw.written]
      exact .cons (by simp [isBlank, noTab, other]) raw.unbroken

/-- Text is read back from double quotes. -/
def Unescapes (start : Mark) (rest cs : List Char) : Prop :=
  ∀ m fuel, m.column ≠ 0 → (cs.flatMap escaped).length < fuel →
    quoted false start fuel (placed m (cs.flatMap escaped ++ '"' :: rest)) =
      .ok (cs, placed (m.past (cs.flatMap escaped ++ ['"'])) rest)

theorem Unescapes.cons {c : Char} {cs rest : List Char} (blank : c ≠ ' ')
    (onward : Unescapes start rest cs) : Unescapes start rest (c :: cs) := by
  intro m fuel inside enough
  obtain ⟨fuel, rfl⟩ := Nat.exists_eq_succ_of_ne_zero (Nat.ne_of_gt (Nat.zero_lt_of_lt enough))
  rw [List.flatMap_cons, List.length_append] at enough
  rw [List.flatMap_cons, List.append_assoc, List.append_assoc, Mark.past_append]
  rcases escape_or_raw c with special | raw
  · obtain ⟨e, tail, shape, unbroken⟩ := special.shape
    have column := (Mark.across_past m special.unbroken).column
    have size : 2 ≤ (escaped c).length := by simp [shape]
    have next := onward (m.past (escaped c)) fuel (by omega) (by omega)
    have noGap : (isBlank '\\' || isBreak '\\') = false := by decide
    have begins : escaped c ++ (cs.flatMap escaped ++ '"' :: rest) =
        '\\' :: e :: (tail ++ (cs.flatMap escaped ++ '"' :: rest)) := by rw [shape]; rfl
    have reads := special.reads start m (cs.flatMap escaped ++ '"' :: rest)
    rw [begins] at reads ⊢
    rw [quoted_round inside (by decide) (by simp), noGap]
    simp only [Bool.false_eq_true, if_false, Bool.false_and, List.headD_cons, unbroken,
      Bool.and_false, Bool.not_false, Bool.true_and, beq_self_eq_true, if_true, reads, Except.map,
      bind, Except.bind, next, pure, Except.pure, List.singleton_append]
  · have column : (m.step c).column = m.column + 1 := Mark.column_step raw.unbroken
    have size : (escaped c).length = 1 := by rw [raw.written]; rfl
    have noGap : (isBlank c || isBreak c) = false := by
      have noTab := isPrintable_not_tab raw.printable
      simp [isBlank, noTab, blank, raw.unbroken]
    rw [raw.written, List.singleton_append]
    exact quoted_itself inside noGap (isPrintable_not_end raw.printable) raw.noQuote raw.noEscape
      (onward (m.step c) fuel (by omega) (by omega))

theorem escaped_spaces (n : Nat) : (spaces n).flatMap escaped = spaces n := by
  induction n with
  | zero => rfl
  | succ n ih =>
    rw [spaces_succ, List.flatMap_cons, ih]
    rfl

theorem doubleQuoted_placed {rest : List Char} (closed : rest.head? ≠ some '\'')
    (cs : List Char) : Unescapes start rest cs := by
  induction runs cs with
  | nil =>
    intro m fuel inside enough
    obtain ⟨fuel, rfl⟩ := Nat.exists_eq_succ_of_ne_zero (Nat.ne_of_gt (Nat.zero_lt_of_lt enough))
    exact quoted_close inside closed
  | @blanks n cs next _ ih =>
    intro m fuel inside enough
    obtain ⟨fuel, rfl⟩ := Nat.exists_eq_succ_of_ne_zero (Nat.ne_of_gt (Nat.zero_lt_of_lt enough))
    rw [List.flatMap_append, escaped_spaces, List.length_append, spaces, List.length_replicate]
      at enough
    rw [List.flatMap_append, escaped_spaces, List.append_assoc, List.append_assoc, Mark.past_append]
    have column := column_past_spaces m (n + 1)
    exact quoted_spaces inside (solid_escaped next)
      (ih (m.past (spaces (n + 1))) fuel (by omega) (by omega))
  | @breaks run cs nonempty breaks _ _ ih =>
    have other : ∀ c ∈ run, c ≠ ' ' := by
      rintro c hc rfl
      exact absurd (breaks _ hc) (by decide)
    clear nonempty breaks
    induction run with
    | nil => exact ih
    | cons c run ihr =>
      exact (ihr fun d hd => other d (List.mem_cons_of_mem c hd)).cons (other c List.mem_cons_self)
  | char blank _ _ ih => exact ih.cons blank

end Token
end Questionnaire.Yaml
