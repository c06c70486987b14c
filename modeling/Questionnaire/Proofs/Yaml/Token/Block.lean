import Questionnaire.Proofs.Yaml.Token.Quoted

/-!
Literal blocks read back. The header says where the lines begin, if a blank or a break stands there,
and what becomes of the breaks at the end; then the lines are those of the text, each behind its
indentation (`block_placed`).
-/
namespace Questionnaire.Yaml
open Yaml.Text (placed)
open Write

/-- Text that can be written as a literal block. -/
structure LiteralText (cs : List Char) : Prop where
  nonempty : cs ≠ []
  printable : ∀ c ∈ cs, isPrintable c

/-- A text from the start of one of its lines on: its last line, a line and the breaks that end the
text, or a line and the breaks before another one. -/
inductive Lined : List Char → Prop
  | last {line : List Char} : line ≠ [] → (∀ c ∈ line, isLineBreak c = false) → Lined line
  | ended {line run : List Char} {b : Char} : line ≠ [] → (∀ c ∈ line, isLineBreak c = false) →
      (∀ c ∈ b :: run, isLineBreak c) → Lined (line ++ b :: run)
  | more {line run rest : List Char} {b d : Char} : line ≠ [] →
      (∀ c ∈ line, isLineBreak c = false) → (∀ c ∈ b :: run, isLineBreak c) →
      isLineBreak d = false → Lined (d :: rest) → Lined (line ++ (b :: run ++ d :: rest))

theorem lined (cs : List Char) {c : Char} (first : isLineBreak c = false) : Lined (c :: cs) := by
  induction length : cs.length using Nat.strongRecOn generalizing c cs with
  | ind k ih =>
    subst length
    obtain ⟨line, rest, rfl, unbroken, stop⟩ := exists_run (fun d => !isLineBreak d) cs
    have unbroken : ∀ d ∈ c :: line, isLineBreak d = false := by
      intro d hd
      rcases List.mem_cons.mp hd with rfl | hd
      · exact first
      · simpa using unbroken d hd
    have nonempty := List.cons_ne_nil c line
    rcases rest with _ | ⟨b, rest⟩
    · rw [List.append_nil]
      exact .last nonempty unbroken
    · obtain ⟨run, rest, rfl, breaks, next⟩ := exists_run isLineBreak rest
      have breaks : ∀ d ∈ b :: run, isLineBreak d := by
        intro d hd
        rcases List.mem_cons.mp hd with rfl | hd
        · simpa using stop d rfl
        · exact breaks d hd
      rcases rest with _ | ⟨d, rest⟩
      · rw [List.append_nil]
        exact .ended nonempty unbroken breaks
      · refine .more nonempty unbroken breaks (next d rfl) (ih _ ?_ rest (next d rfl) rfl)
        simp only [List.length_append, List.length_cons]
        omega

namespace Write

theorem indented_line {indent : Nat} {close : Bool} {line cs : List Char}
    (unbroken : ∀ c ∈ line, isLineBreak c = false) :
    indented indent false close false (line ++ cs) =
      line ++ indented indent false close false cs := by
  induction line with
  | nil => rfl
  | cons c line ih =>
    have first := unbroken c List.mem_cons_self
    rw [List.cons_append, indented, first, ih fun d hd => unbroken d (List.mem_cons_of_mem c hd)]
    rfl

theorem indented_unbroken {indent : Nat} {close : Bool} {line : List Char}
    (unbroken : ∀ c ∈ line, isLineBreak c = false) :
    indented indent false close false line = line := by
  have plain : indented indent false close false (line ++ []) = line ++ _ := indented_line unbroken
  simpa [indented] using plain

theorem indented_cons {indent : Nat} {quotes close : Bool} {c : Char} {cs : List Char}
    (unbroken : isLineBreak c = false) :
    indented indent quotes close true (c :: cs) =
      spaces indent ++ indented indent quotes close false (c :: cs) := by
  simp [indented, unbroken, spaces]

/-- At the start of a line breaks leave the text there. -/
theorem indented_breaks {indent : Nat} {quotes close : Bool} {run cs : List Char}
    (breaks : ∀ c ∈ run, isLineBreak c) :
    indented indent quotes close true (run ++ cs) =
      run ++ indented indent quotes close true cs := by
  cases run with
  | nil => rfl
  | cons c run => exact indented_run breaks (List.cons_ne_nil c run)

/-- The break behind a literal block that does not end with one. -/
def lineEnd (cs : List Char) : List Char := if cs.getLast?.any isLineBreak then [] else ['\n']

theorem lineEnd_append (xs : List Char) (c : Char) (cs : List Char) :
    lineEnd (xs ++ c :: cs) = lineEnd (c :: cs) := by
  rw [lineEnd, lineEnd, List.getLast?_append,
    List.getLast?_eq_some_getLast (List.cons_ne_nil c cs), Option.some_or]

theorem lineEnd_line {line : List Char} (nonempty : line ≠ [])
    (unbroken : ∀ c ∈ line, isLineBreak c = false) : lineEnd line = ['\n'] := by
  have last := unbroken _ (List.getLast_mem nonempty)
  simp [lineEnd, List.getLast?_eq_some_getLast nonempty, last]

theorem lineEnd_breaks {run : List Char} {b : Char} (breaks : ∀ c ∈ b :: run, isLineBreak c) :
    lineEnd (b :: run) = [] := by
  have nonempty := List.cons_ne_nil b run
  have last := breaks _ (List.getLast_mem nonempty)
  simp only [lineEnd, List.getLast?_eq_some_getLast nonempty, Option.any_some, last, if_true]

theorem length_indented (indent : Nat) (quotes close atStart : Bool) (cs : List Char) :
    cs.length ≤ (indented indent quotes close atStart cs).length := by
  induction cs generalizing atStart with
  | nil => exact Nat.zero_le _
  | cons c cs ih =>
    rw [indented]
    split
    · exact Nat.succ_le_succ (ih true)
    · have rest := ih false
      simp only [List.length_append, List.length_cons]
      split <;> split <;> simp <;> omega

end Write

namespace Token
variable {start m : Mark}

/-- What the header says about the breaks at the end. -/
def chompingOf (cs : List Char) : Chomping :=
  match cs.reverse with
  | c :: d :: _ => if !isLineBreak c then .strip else if isLineBreak d then .keep else .clip
  | [c] => if isLineBreak c then .keep else .strip
  | [] => .strip

theorem chompingOf_concat {cs : List Char} {c : Char} (unbroken : isLineBreak c = false) :
    chompingOf (cs ++ [c]) = .strip := by
  rw [chompingOf, List.reverse_append]
  cases cs.reverse <;> simp [unbroken]

theorem chompingOf_line {line : List Char} (nonempty : line ≠ [])
    (unbroken : ∀ c ∈ line, isLineBreak c = false) : chompingOf line = .strip := by
  rw [← List.dropLast_concat_getLast nonempty]
  exact chompingOf_concat (unbroken _ (List.getLast_mem nonempty))

theorem chompingOf_pair {cs : List Char} {c d : Char} (ended : isLineBreak d) :
    chompingOf (cs ++ [c, d]) = if isLineBreak c then .keep else .clip := by
  simp [chompingOf, ended]

theorem chompingOf_breaks {run : List Char} (nonempty : run ≠ [])
    (breaks : ∀ c ∈ run, isLineBreak c) : chompingOf run = .keep := by
  have ended : ∀ c ∈ run.reverse, isLineBreak c := fun c hc => breaks c (List.mem_reverse.mp hc)
  rw [chompingOf]
  rcases h : run.reverse with _ | ⟨c, _ | ⟨d, rest⟩⟩
  · exact absurd (List.reverse_eq_nil_iff.mp h) nonempty
  · simp [ended c (by simp [h])]
  · simp [ended c (by simp [h]), ended d (by simp [h])]

/-- The end of a text counts. -/
theorem chompingOf_append {xs cs : List Char} {c : Char} (unbroken : isLineBreak c = false) :
    chompingOf (xs ++ c :: cs) = chompingOf (c :: cs) := by
  rcases List.eq_nil_or_concat cs with rfl | ⟨rest, d, rfl⟩
  · rw [chompingOf_concat unbroken]
    simp [chompingOf, unbroken]
  · rw [List.concat_eq_append]
    simp only [chompingOf, List.reverse_append, List.reverse_cons, List.reverse_nil,
      List.nil_append, List.singleton_append, List.append_assoc]
    cases rest.reverse <;> rfl

/-- A block ends with a line or with the breaks behind one. -/
theorem chomp_line {line run : List Char} {b : Char} {blank : Bool} (nonempty : line ≠ [])
    (unbroken : ∀ c ∈ line, isLineBreak c = false) (breaks : ∀ c ∈ b :: run, isLineBreak c) :
    Join.chomp (chompingOf (line ++ b :: run)) ⟨[b], run, blank⟩ = b :: run := by
  rcases List.eq_nil_or_concat run with rfl | ⟨more, e, rfl⟩
  · obtain ⟨xs, d, rfl⟩ : ∃ xs d, line = xs ++ [d] :=
      ⟨_, _, (List.dropLast_concat_getLast nonempty).symm⟩
    have last : isLineBreak d = false := unbroken d (by simp)
    rw [List.append_assoc, List.singleton_append, chompingOf_pair (breaks b (by simp)), last]
    rfl
  · obtain ⟨ys, y, same⟩ : ∃ ys y, b :: more = ys ++ [y] :=
      ⟨_, _, (List.dropLast_concat_getLast (List.cons_ne_nil b more)).symm⟩
    have split : line ++ b :: more.concat e = line ++ ys ++ [y, e] := by
      rw [List.concat_eq_append, ← List.cons_append, same]
      simp
    have before : isLineBreak y := by
      have mem : y ∈ b :: more := by simp [same]
      rw [List.concat_eq_append, ← List.cons_append] at breaks
      exact breaks y (List.mem_append_left _ mem)
    rw [split, chompingOf_pair (breaks e (by simp)), if_pos before]
    rfl

/-- Blanks up to a character that is no part of an empty line. -/
theorem emptyLines_spaces (start m : Mark) {tail : List Char} {k j : Nat}
    (within : k = 0 ∨ m.column + j ≤ k)
    (unbroken : isBreak (tail.headD endOfText) = false)
    (solid : k = 0 ∨ m.column + j < k → isBlank (tail.headD endOfText) = false) (widest : Nat) :
    emptyLines k start widest (placed m (spaces j ++ tail)) =
      .ok ([], max widest (m.column + j), placed (m.past (spaces j)) tail) := by
  induction j generalizing m with
  | zero =>
    have stop : ∀ (c : Char) (t : Yaml.Text), isBreak c = false →
        (k = 0 ∨ m.column < k → isBlank c = false) →
        emptyLines k start widest (⟨c, m⟩ :: t) = .ok ([], max widest m.column, ⟨c, m⟩ :: t) := by
      intro c t unbroken solid
      rw [emptyLines]
      by_cases inside : k = 0 ∨ m.column < k
      · have dense := solid inside
        simp only [isBlank, Bool.or_eq_false_iff] at dense
        simp [dense.1, dense.2, unbroken]
      · have outside : (k == 0 || decide (m.column < k)) = false := by simpa using inside
        simp [outside, unbroken]
    cases tail with
    | nil => exact stop endOfText [] unbroken solid
    | cons c tail => exact stop c _ unbroken solid
  | succ j ih =>
    have blank : isBreak ' ' = false := by decide
    have column : (m.step ' ').column = m.column + 1 := Mark.column_step blank
    have inside : (k == 0 || decide (m.column < k)) = true := by
      simp only [Bool.or_eq_true, beq_iff_eq, decide_eq_true_eq]
      omega
    have rest := ih (m.step ' ') (by omega) (fun h => solid (by omega))
    rw [spaces_succ, List.cons_append, placed, emptyLines]
    simp only [inside, beq_self_eq_true, Bool.and_self, if_true]
    rw [rest, column, Nat.add_right_comm, Nat.add_assoc m.column]
    rfl

/-- Empty lines, and the indentation of the line behind them, which is the one that is asked for or
a smaller one with some other text. -/
theorem emptyLines_placed (start m : Mark) {run tail : List Char} {k j : Nat}
    (breaks : ∀ c ∈ run, isBreak c)
    (column : m.column = 0) (within : j ≤ k) (positive : 0 < k)
    (unbroken : isBreak (tail.headD endOfText) = false)
    (solid : j < k → isBlank (tail.headD endOfText) = false) (widest : Nat) :
    ∃ w, emptyLines k start widest (placed m (run ++ (spaces j ++ tail))) =
      .ok (run, w, placed (m.past (run ++ spaces j)) tail) := by
  induction run generalizing m widest with
  | nil =>
    exact ⟨_, emptyLines_spaces start m (Or.inr (by omega)) unbroken (fun h => solid (by omega))
      widest⟩
  | cons c run ih =>
    have broken := breaks c List.mem_cons_self
    have blank : (c == ' ') = false ∧ (c == '\t') = false := by
      rw [beq_eq_false_iff_ne, beq_eq_false_iff_ne]
      constructor
      · rintro rfl
        exact absurd broken (by decide)
      · rintro rfl
        exact absurd broken (by decide)
    obtain ⟨w, rest⟩ := ih (m.step c) (fun d hd => breaks d (List.mem_cons_of_mem c hd))
      (Mark.column_step_of_break broken) (max widest m.column)
    refine ⟨w, ?_⟩
    rw [List.cons_append, placed, emptyLines]
    simp only [blank.1, blank.2, broken, Bool.and_false, Bool.false_eq_true, if_false, if_true]
    rw [rest]
    rfl

/-- A line of a block, with the breaks behind it and the indentation of the next line. -/
theorem blockLines_step (start : Mark) (fuel : Nat) (chomping : Chomping) (join : Join)
    (line tail : List Char) {run : List Char} {b : Char} {k j : Nat} (column : m.column = k)
    (nonempty : line ≠ [])
    (text : ∀ c ∈ line, isPrintable c ∧ isLineBreak c = false) (breaks : ∀ c ∈ b :: run, isBreak c)
    (within : j ≤ k) (positive : 0 < k) (unbroken : isBreak (tail.headD endOfText) = false)
    (solid : j < k → isBlank (tail.headD endOfText) = false) :
    ∃ blank, blockLines true k start chomping (fuel + 1) join
        (placed m (line ++ (b :: run ++ (spaces j ++ tail)))) = do
      let (more, rest) ← blockLines true k start chomping fuel ⟨[b], run, blank⟩
        (placed (m.past (line ++ (b :: run ++ spaces j))) tail)
      return (join.lastBreak ++ join.emptyBreaks ++ line ++ more, rest) := by
  have broken := breaks b List.mem_cons_self
  have ended : isEnd b = false := isEnd_of_isBreak broken
  have inside : ∀ c ∈ line, (!isBreakOrEnd c) = true := by
    intro c hc
    have noEnd := isPrintable_not_end (text c hc).1
    simp [isBreakOrEnd, isBreak_eq_false (text c hc).2, noEnd]
  have stop : (!isBreakOrEnd b) = false := by simp [isBreakOrEnd, broken]
  have cut : Text.span _ (placed m (line ++ b :: (run ++ (spaces j ++ tail)))) = _ :=
    Text.span_placed inside stop
  obtain ⟨w, empty⟩ := emptyLines_placed start ((m.past line).step b)
    (fun c hc => breaks c (List.mem_cons_of_mem b hc)) (Mark.column_step_of_break broken) within
    positive unbroken solid 0
  obtain ⟨c, more, rfl⟩ := List.exists_cons_of_ne_nil nonempty
  have first : isEnd c = false := isPrintable_not_end (text c List.mem_cons_self).1
  refine ⟨isBlank c, ?_⟩
  rw [blockLines]
  rw [List.cons_append] at cut ⊢
  simp only [Text.column_placed, column, ne_eq, not_true_eq_false, decide_false, Bool.false_or,
    Text.peek_cons, first, Bool.false_eq_true, if_false, List.cons_append, cut, ended, Join.text,
    Bool.not_true, Bool.false_and, Text.drop_placed, empty]
  have past : m.past (c :: (more ++ b :: (run ++ spaces j))) = _ :=
    Mark.past_append m (c :: more) (b :: (run ++ spaces j))
  rw [past]
  rfl

theorem column_past_line (m : Mark) (line : List Char) {run : List Char} {b : Char}
    (breaks : ∀ c ∈ b :: run, isBreak c) (j : Nat) :
    (m.past (line ++ (b :: run ++ spaces j))).column = j := by
  rw [Mark.past_append]
  exact column_past_indentation _ breaks (List.cons_ne_nil b run) j

theorem column_past_empty {run : List Char} (column : m.column = 0) (breaks : ∀ c ∈ run, isBreak c)
    (j : Nat) : (m.past (run ++ spaces j)).column = j := by
  cases run with
  | nil => rw [List.nil_append, column_past_spaces, column, Nat.zero_add]
  | cons b run => exact column_past_indentation m breaks (List.cons_ne_nil b run) j

/-- Less indentation ends a block. -/
theorem blockLines_end {tail : List Char} {k fuel : Nat} {chomping : Chomping} {join : Join}
    (column : m.column ≠ k) :
    blockLines true k start chomping fuel join (placed m tail) =
      .ok (join.chomp chomping, placed m tail) := by
  cases fuel with
  | zero => rfl
  | succ fuel =>
    rw [blockLines]
    simp [column]

/-- The last line of a block, with the breaks behind it. -/
theorem blockLines_final (start : Mark) (fuel : Nat) (chomping : Chomping) (join : Join)
    {line tail run : List Char} {b : Char} {k c : Nat} (column : m.column = k)
    (nonempty : line ≠ [])
    (text : ∀ d ∈ line, isPrintable d ∧ isLineBreak d = false) (breaks : ∀ d ∈ b :: run, isBreak d)
    (outside : c < k) (solid : Solid tail) :
    blockLines true k start chomping (fuel + 1) join
        (placed m (line ++ (b :: run ++ (spaces c ++ tail)))) =
      .ok (join.lastBreak ++ join.emptyBreaks ++ line ++ Join.chomp chomping ⟨[b], run, false⟩,
        placed (m.past (line ++ (b :: run ++ spaces c))) tail) := by
  obtain ⟨blank, round⟩ := blockLines_step start fuel chomping join line tail column nonempty text
    breaks (Nat.le_of_lt outside) (Nat.zero_lt_of_lt outside) solid.unbroken fun _ => solid.blank
  have away : (m.past (line ++ (b :: run ++ spaces c))).column ≠ k := by
    rw [column_past_line m line breaks]
    exact Nat.ne_of_lt outside
  rw [round, blockLines_end away]
  cases chomping <;> rfl

theorem isBreak_of_mem {run : List Char} (printable : ∀ c ∈ run, isPrintable c)
    (breaks : ∀ c ∈ run, isLineBreak c) : ∀ c ∈ run, isBreak c :=
  fun c hc => isBreak_of_isLineBreak (printable c hc) (breaks c hc)

/-- The lines of a text, up to a line that is indented less. -/
theorem blockLines_placed {cs tail : List Char} {k c fuel : Nat} {join : Join} (lined : Lined cs)
    (printable : ∀ d ∈ cs, isPrintable d) (column : m.column = k) (outside : c < k)
    (solid : Solid tail) (enough : cs.length < fuel) :
    blockLines true k start (chompingOf cs) fuel join
        (placed m (indented k false false false cs ++ (lineEnd cs ++ (spaces c ++ tail)))) =
      .ok (join.lastBreak ++ join.emptyBreaks ++ cs,
        placed (m.past (indented k false false false cs ++ (lineEnd cs ++ spaces c))) tail) := by
  -- Each line takes one round, which leaves the reader at the start of the next one.
  induction lined generalizing m fuel join with
  | last nonempty unbroken =>
    obtain ⟨fuel, rfl⟩ := Nat.exists_eq_add_of_lt enough
    have feed : ∀ d ∈ ['\n'], isBreak d := List.forall_mem_singleton.mpr rfl
    rw [indented_unbroken unbroken, lineEnd_line nonempty unbroken,
      chompingOf_line nonempty unbroken,
      blockLines_final start _ .strip join column nonempty
        (fun d hd => ⟨printable d hd, unbroken d hd⟩) feed outside solid,
      Join.chomp, List.append_nil]
  | @ended line run b nonempty unbroken breaks =>
    obtain ⟨fuel, rfl⟩ := Nat.exists_eq_add_of_lt enough
    have hbreak := isBreak_of_mem (fun d hd => printable d (List.mem_append_right line hd)) breaks
    have written : indented k false false false (line ++ b :: run) = line ++ b :: run := by
      have cut : indented k false false false (b :: run ++ []) = b :: run ++ _ :=
        indented_run breaks (List.cons_ne_nil b run)
      rw [List.append_nil] at cut
      rw [indented_line unbroken, cut]
      simp [indented]
    have ended : lineEnd (line ++ b :: run) = [] := by
      rw [lineEnd_append, lineEnd_breaks breaks]
    rw [written, ended, List.nil_append, List.nil_append, List.append_assoc, List.append_assoc,
      blockLines_final start _ _ join column nonempty
        (fun d hd => ⟨printable d (List.mem_append_left _ hd), unbroken d hd⟩) hbreak outside solid,
      chomp_line nonempty unbroken breaks]
    simp only [List.append_assoc]
  | @more line run rest b d nonempty unbroken breaks next _ ih =>
    obtain ⟨fuel, rfl⟩ := Nat.exists_eq_add_of_lt enough
    have inner : ∀ e ∈ b :: run ++ d :: rest, isPrintable e :=
      fun e he => printable e (List.mem_append_right line he)
    have hbreak := isBreak_of_mem (fun e he => inner e (List.mem_append_left _ he)) breaks
    have head : indented k false false false (d :: rest) =
        d :: indented k false false false rest := by
      simp [indented, next]
    have written : indented k false false false (line ++ (b :: run ++ d :: rest)) =
        line ++ (b :: run ++ (spaces k ++ indented k false false false (d :: rest))) := by
      rw [indented_line unbroken, indented_run breaks (List.cons_ne_nil b run), indented_cons next]
    have same : chompingOf (line ++ (b :: run ++ d :: rest)) = chompingOf (d :: rest) := by
      rw [← List.append_assoc, chompingOf_append next]
    have ended : lineEnd (line ++ (b :: run ++ d :: rest)) = lineEnd (d :: rest) := by
      rw [← List.append_assoc, lineEnd_append]
    have unbrokenNext : isBreak ((indented k false false false (d :: rest) ++
        (lineEnd (d :: rest) ++ (spaces c ++ tail))).headD endOfText) = false := by
      rw [head]
      exact isBreak_eq_false next
    obtain ⟨blank, round⟩ := blockLines_step start
      ((line ++ (b :: run ++ d :: rest)).length + fuel) (chompingOf (d :: rest)) join line _ column
      nonempty (fun e he => ⟨printable e (List.mem_append_left _ he), unbroken e he⟩) hbreak
      (Nat.le_refl k) (Nat.zero_lt_of_lt outside) unbrokenNext fun h => absurd h (Nat.lt_irrefl k)
    have shorter : (d :: rest).length < (line ++ (b :: run ++ d :: rest)).length + fuel := by
      simp only [List.length_append, List.length_cons]
      omega
    have onward : blockLines true k start _ _ ⟨[b], run, blank⟩ _ = _ :=
      ih (fun e he => inner e (List.mem_append_right _ he)) (column_past_line m line hbreak k)
        shorter
    simp only [List.append_assoc] at round onward ⊢
    rw [written, same, ended]
    simp only [List.append_assoc]
    rw [round, onward]
    simp [bind, Except.bind, pure, Except.pure, Mark.past_append]

/-- Does the header have to say where the lines begin? -/
def needsHint (cs : List Char) : Bool := cs.head?.any fun c => isSpace c || isLineBreak c

/-- How a chomping is written. -/
def Chomping.hint : Chomping → List Char
  | .strip => ['-']
  | .clip => []
  | .keep => ['+']

theorem toList_blockHints (cs : List Char) :
    (blockHints cs).toList = (if needsHint cs then ['2'] else []) ++ (chompingOf cs).hint := by
  rw [blockHints, String.toList_append, chompingOf]
  congr 1
  · rw [← needsHint]
    cases needsHint cs <;> rfl
  · rcases cs.reverse with _ | ⟨c, _ | ⟨d, rest⟩⟩
    · rfl
    · cases h : isLineBreak c <;> simp [h, Chomping.hint]
    · cases h : isLineBreak c <;> cases h' : isLineBreak d <;> simp [h, h', Chomping.hint]

theorem blockHeader_placed {cs after : List Char} :
    blockHeader start (placed m ((blockHints cs).toList ++ '\n' :: after)) =
      .ok (chompingOf cs, if needsHint cs then some 2 else none,
        placed (m.past (blockHints cs).toList) ('\n' :: after)) := by
  rw [toList_blockHints]
  cases needsHint cs <;> cases chompingOf cs <;> rfl

/-- The empty lines in front of the first line of a block. Where the header does not say how far
that line is indented, it is seen from them. -/
theorem emptyLines_first (start m : Mark) {run after : List Char} {d : Char} (n : Nat)
    (rest : List Char) (printable : isPrintable d) (breaks : ∀ c ∈ run, isBreak c ∧ isLineBreak c)
    (next : isLineBreak d = false) (column : m.column = 0) :
    let given := if needsHint (run ++ d :: rest) then n + 2 else 0
    ∃ w, emptyLines given start 0 (placed m (run ++ (spaces (n + 2) ++ d :: after))) =
        .ok (run, w, placed (m.past (run ++ spaces (n + 2))) (d :: after)) ∧
      (if given = 0 then max w (n + 1) else given) = n + 2 := by
  intro given
  have unbroken : isBreak ((d :: after).headD endOfText) = false := isBreak_eq_false next
  cases hint : needsHint (run ++ d :: rest) with
  | true =>
    obtain ⟨w, empty⟩ := emptyLines_placed start m (k := n + 2) (j := n + 2)
      (fun c hc => (breaks c hc).1) column (Nat.le_refl _) (Nat.succ_pos _) unbroken
      (fun h => absurd h (Nat.lt_irrefl _)) 0
    simp only [given, hint, if_true]
    exact ⟨w, empty, rfl⟩
  | false =>
    -- Without a hint the text starts with a character that is neither a blank nor a break.
    cases run with
    | cons b run => simp [needsHint, breaks b List.mem_cons_self] at hint
    | nil =>
      have dense : isBlank d = false := by
        have noSpace : isSpace d = false := by simp_all [needsHint]
        simp only [isSpace] at noSpace
        simp [isBlank, noSpace, isPrintable_not_tab printable]
      have empty := emptyLines_spaces start m (k := 0) (j := n + 2) (Or.inl rfl) unbroken
        (fun _ => dense) 0
      simp only [given, hint, Bool.false_eq_true, if_false]
      refine ⟨_, empty, ?_⟩
      rw [column, if_true]
      omega

/-- The lines of a block, whose indentation is known or found. -/
theorem block_body (start m : Mark) {cs tail : List Char} {n c : Nat} (text : LiteralText cs)
    (inside : c ≤ n)
    (solid : Solid tail) (column : m.column = 0) :
    let given := if needsHint cs then n + 2 else 0
    let written := indented (n + 2) false false true cs ++ lineEnd cs
    ∃ breaks w t, emptyLines given start 0 (placed m (written ++ (spaces c ++ tail))) =
        .ok (breaks, w, t) ∧
      blockLines true (if given = 0 then max w (n + 1) else given) start (chompingOf cs) t.length
        { emptyBreaks := breaks } t = .ok (cs, placed (m.past (written ++ spaces c)) tail) := by
  intro given written
  obtain ⟨run, rest, rfl, breaks, next⟩ := exists_run isLineBreak cs
  have hbreak := isBreak_of_mem (fun d hd => text.printable d (List.mem_append_left rest hd)) breaks
  rcases rest with _ | ⟨d, rest⟩
  · -- There are breaks only, which an indentation is given for.
    rw [List.append_nil] at text
    obtain ⟨b, more, rfl⟩ := List.exists_cons_of_ne_nil text.nonempty
    have hint : given = n + 2 := by
      have first := breaks b List.mem_cons_self
      simp [given, needsHint, first]
    have whole : written = b :: more := by
      simp only [written]
      rw [indented_breaks breaks, List.append_nil, lineEnd_breaks breaks, List.append_nil]
      simp [indented]
    obtain ⟨w, empty⟩ := emptyLines_placed start m (k := n + 2) (j := c) hbreak column (by omega)
      (by omega) solid.unbroken (fun _ => solid.blank) 0
    have away : (m.past (b :: more ++ spaces c)).column ≠ n + 2 := by
      rw [column_past_empty column hbreak]
      omega
    rw [List.append_nil, whole, hint]
    refine ⟨b :: more, w, _, empty, ?_⟩
    rw [if_neg (by omega), chompingOf_breaks text.nonempty breaks, blockLines_end away]
    rfl
  · have plain := next d rfl
    have inner : ∀ e ∈ d :: rest, isPrintable e :=
      fun e he => text.printable e (List.mem_append_right run he)
    have written_append (after : List Char) : written ++ after = run ++ (spaces (n + 2) ++
        (indented (n + 2) false false false (d :: rest) ++ (lineEnd (d :: rest) ++ after))) := by
      simp only [written]
      rw [indented_breaks breaks, indented_cons plain, lineEnd_append]
      simp only [List.append_assoc]
    have head : indented (n + 2) false false false (d :: rest) =
        d :: indented (n + 2) false false false rest := by
      simp [indented, plain]
    obtain ⟨w, empty, indent⟩ := emptyLines_first start m n rest
      (inner d List.mem_cons_self) (fun e he => ⟨hbreak e he, breaks e he⟩) plain column
    have enough := length_indented (n + 2) false false false (d :: rest)
    rw [written_append, head, List.cons_append]
    refine ⟨run, w, _, empty, ?_⟩
    rw [indent, chompingOf_append plain, ← List.cons_append, ← head,
      blockLines_placed (lined rest plain) inner (column_past_empty column hbreak _) (by omega)
        solid, written_append]
    · simp only [List.nil_append, Mark.past_append]
    · rw [Text.length_placed, List.length_append]
      omega

/-- A literal block is read back. It takes the indentation of the line behind it. -/
theorem block_placed (start m : Mark) {cs tail : List Char} {n c : Nat} (text : LiteralText cs)
    (inside : c ≤ n)
    (solid : Solid tail) :
    block true n start (placed m ((blockHints cs).toList ++ '\n' ::
        (indented (n + 2) false false true cs ++ (lineEnd cs ++ (spaces c ++ tail))))) =
      .ok (cs, placed (m.past ((blockHints cs).toList ++ '\n' ::
        (indented (n + 2) false false true cs ++ (lineEnd cs ++ spaces c)))) tail) := by
  have dense : isBlank '\n' = false := by decide
  have broken : isBreak '\n' = true := by decide
  have skipped (m : Mark) (after : List Char) :
      (placed m ('\n' :: after)).skipBlanksAndComment = placed m ('\n' :: after) := by
    simp [Text.skipBlanksAndComment, Text.skipWhile, placed, Text.span, dense, Text.peek,
      Text.peekAt]
  obtain ⟨breaks, w, t, empty, lines⟩ :=
    block_body start ((m.past (blockHints cs).toList).step '\n') text inside solid
      (Mark.column_step_of_break broken)
  rw [block, blockHeader_placed]
  have parent : (max (n : Int) 0).toNat = n ∧ (max ((n : Int) + 1).toNat 1) = n + 1 := by omega
  rw [Mark.past_append, Mark.past_cons]
  cases hint : needsHint cs with
  | true =>
    simp only [hint, if_true, List.append_assoc] at empty lines
    simp only [bind, Except.bind, skipped, Text.peek_cons, isBreakOrEnd, broken, Bool.true_or,
      Bool.not_true, Bool.false_eq_true, if_false, if_true, Text.drop_placed, parent, empty]
    exact lines
  | false =>
    simp only [hint, Bool.false_eq_true, if_false, if_true, List.append_assoc] at empty lines
    simp only [bind, Except.bind, skipped, Text.peek_cons, isBreakOrEnd, broken, Bool.true_or,
      Bool.not_true, Bool.false_eq_true, if_false, if_true, Text.drop_placed, parent, empty]
    exact lines

end Token
end Questionnaire.Yaml
