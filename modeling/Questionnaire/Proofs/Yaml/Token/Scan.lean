import Questionnaire.Proofs.Yaml.Token.Block
import Questionnaire.Yaml.Token.Scan

/-!
Steps between the tokens of written text. What stands between two tokens is skipped and what cannot
be a key any more is forgotten before the next token is looked for, so states that differ only in
this go on in the same way (`next_settle`, `next_close`); `Reaches` leaves it out.
-/
namespace Questionnaire.Yaml
open Yaml.Text (placed)
open Write Token

/-- The text goes on with a token, or ends. -/
structure Bare (cs : List Char) : Prop extends Solid cs where
  comment : (cs.headD endOfText == '#') = false
  mark : (cs.headD endOfText == '\uFEFF') = false

theorem Bare.nil : Bare [] := ⟨.nil, by decide, by decide⟩

theorem Bare.cons {c : Char} {cs : List Char} (solid : Solid [c]) (comment : (c == '#') = false)
    (mark : (c == '\uFEFF') = false) : Bare (c :: cs) :=
  ⟨.cons solid.blank solid.unbroken, comment, mark⟩

theorem PlainText.bare {cs : List Char} (text : PlainText cs) (after : List Char) :
    Bare (cs ++ after) := by
  refine ⟨text.words.solid, ?_, ?_⟩
  · obtain ⟨c, rest, rfl, opening, _⟩ := text.starts
    simp only [isOpening, Bool.or_eq_false_iff] at opening
    simp [opening]
  · obtain ⟨c, rest, rfl, _⟩ := text.starts
    have printable := text.printable c List.mem_cons_self
    show (c == '\uFEFF') = false
    rw [beq_eq_false_iff_ne]
    rintro rfl
    exact absurd printable (by decide)

namespace Scan

/-- In block context, before characters that stand for themselves. -/
def block (m : Mark) (cs : List Char) (tokens : List Token) (indents : List Nat)
    (keyAllowed : Bool) (key? : Option PossibleKey) : Scan :=
  { rest := placed m cs, tokens, count := tokens.length, indents, keyAllowed, keys := [key?] }

variable {m : Mark} {cs : List Char} {ts : List Token} {indents outer : List Nat} {n : Nat}
  {allowed : Bool} {key : PossibleKey} {key? : Option PossibleKey} {s s' s'' : Scan}

@[simp]
theorem rest_block : (block m cs ts indents allowed key?).rest = placed m cs := rfl

@[simp]
theorem mark_block : (block m cs ts indents allowed key?).mark = m := Text.mark_placed

@[simp]
theorem count_block : (block m cs ts indents allowed key?).count = ts.length := rfl

@[simp]
theorem keyAllowed_block : (block m cs ts indents allowed key?).keyAllowed = allowed := rfl

@[simp]
theorem inFlow_block : (block m cs ts indents allowed key?).inFlow = false := rfl

@[simp]
theorem keys_block : (block m cs ts indents allowed key?).keys = [key?] := rfl

@[simp]
theorem clearKey_block : (block m cs ts indents allowed none).clearKey =
    .ok (block m cs ts indents allowed none) := rfl

@[simp]
theorem take_block {kind : Kind} {m' : Mark} {ds : List Char} :
    (block m cs ts indents allowed key?).take kind (placed m' ds) =
      block m' ds (⟨kind, m, m'⟩ :: ts) indents allowed key? := by
  simp [take, push, block, mark]

/-! Skipping. -/

theorem skipBlanks_bare (bare : Bare cs) (inFlow : Bool) :
    skipBlanks inFlow allowed false (placed m cs) = (allowed, placed m cs) := by
  have stop : ∀ (c : Char) (t : Yaml.Text), isBlank c = false → isBreak c = false →
      (c == '#') = false → (c == '\uFEFF') = false →
      skipBlanks inFlow allowed false (⟨c, m⟩ :: t) = (allowed, ⟨c, m⟩ :: t) := by
    intro c t blank unbroken comment mark
    simp only [isBlank, Bool.or_eq_false_iff] at blank
    simp [skipBlanks, blank.1, blank.2, unbroken, comment, mark]
  cases cs with
  | nil => exact stop endOfText [] bare.blank bare.unbroken bare.comment bare.mark
  | cons c cs => exact stop c _ bare.blank bare.unbroken bare.comment bare.mark

theorem skipBlanks_spaces (bare : Bare cs) (k : Nat) :
    skipBlanks false allowed false (placed m (spaces k ++ cs)) =
      (allowed, placed (m.past (spaces k)) cs) := by
  induction k generalizing m with
  | zero => exact skipBlanks_bare bare false
  | succ k ih =>
    rw [spaces_succ, List.cons_append, placed, skipBlanks]
    exact ih

theorem skipBlanks_line (bare : Bare cs) (k : Nat) :
    skipBlanks false allowed false (placed m ('\n' :: (spaces k ++ cs))) =
      (true, placed (m.past ('\n' :: spaces k)) cs) := by
  rw [placed, skipBlanks]
  simp only [show isBreak '\n' = true by decide, if_true, Bool.not_false, Bool.or_true]
  exact skipBlanks_spaces bare k

/-! Forgetting. -/

theorem dropStale_none : (block m cs ts indents allowed none).dropStale =
    .ok (block m cs ts indents allowed none) := rfl

theorem isStale_block : (block m cs ts indents allowed key?).isStale key =
    (decide (key.mark.line < m.line) || decide (key.mark.offset + 1024 < m.offset)) := by
  simp [isStale, mark, block]

theorem dropStale_fresh (line : m.line ≤ key.mark.line) (near : m.offset ≤ key.mark.offset + 1024) :
    (block m cs ts indents allowed (some key)).dropStale =
      .ok (block m cs ts indents allowed (some key)) := by
  have fresh : (block m cs ts indents allowed (some key)).isStale key = false := by
    rw [isStale_block]
    simp [Nat.not_lt.mpr line, Nat.not_lt.mpr near]
  rw [dropStale]
  simp only [block] at fresh ⊢
  simp [fresh, bind, Except.bind, pure, Except.pure]

/-- A possible key that may be forgotten, from a line above or from this one. -/
def Passing (m : Mark) (key? : Option PossibleKey) : Prop :=
  ∀ key, key? = some key → key.required = false ∧ key.mark.line ≤ m.line

theorem dropStale_free (stale : key.mark.line < m.line ∨ key.mark.offset + 1024 < m.offset)
    (free : key.required = false) :
    (block m cs ts indents allowed (some key)).dropStale =
      .ok (block m cs ts indents allowed none) := by
  have stale : (block m cs ts indents allowed (some key)).isStale key = true := by
    rw [isStale_block]
    simpa using stale
  rw [dropStale]
  simp only [block] at stale ⊢
  simp [stale, dropKey, free, bind, Except.bind, pure, Except.pure]

theorem passing_none : Passing m none := fun _ h => nomatch h

theorem dropStale_passing (passing : Passing m key?) :
    ∃ kept : Option PossibleKey, Passing m kept ∧ (block m cs ts indents allowed key?).dropStale =
      .ok (block m cs ts indents allowed kept) := by
  cases key? with
  | none => exact ⟨none, passing, rfl⟩
  | some key =>
    obtain ⟨free, line⟩ := passing key rfl
    by_cases stale : key.mark.line < m.line ∨ key.mark.offset + 1024 < m.offset
    · exact ⟨none, passing_none, dropStale_free stale free⟩
    · exact ⟨some key, passing, dropStale_fresh (by omega) (by omega)⟩

/-! Runs. -/

/-- In no more steps than characters the first state comes to what the second one goes on to, unless
that fails. -/
def Reaches (s s' : Scan) : Prop :=
  ∃ n, n + s'.rest.length ≤ s.rest.length ∧
    ∀ fuel tokens, run (fuel + 1) s' = (tokens, none) → run (n + (fuel + 1)) s = (tokens, none)

theorem Reaches.refl (s : Scan) : Reaches s s :=
  ⟨0, by simp, fun fuel tokens h => by rw [Nat.zero_add, h]⟩

theorem Reaches.trans (h : Reaches s s') (h' : Reaches s' s'') : Reaches s s'' := by
  obtain ⟨n, length, runs⟩ := h
  obtain ⟨k, length', runs'⟩ := h'
  refine ⟨n + k, by omega, fun fuel tokens h => ?_⟩
  rw [Nat.add_assoc, ← Nat.add_assoc k]
  exact runs _ tokens (by rw [Nat.add_assoc]; exact runs' fuel tokens h)

/-- A token that has been read. -/
theorem Reaches.step (running : s.ended = false) (next : s.next = .ok s')
    (fresh : s'.dropStale = .ok s'') (shorter : s''.rest.length < s.rest.length) :
    Reaches s s'' := by
  refine ⟨1, by omega, fun fuel tokens h => ?_⟩
  rw [Nat.add_comm, run, running]
  simp only [Bool.false_eq_true, if_false, next, fresh, bind, Except.bind]
  exact h

/-- States that have the same next token. -/
theorem Reaches.of_next (running : s.ended = false) (running' : s'.ended = false)
    (same : s.next = s'.next) (shorter : s'.rest.length ≤ s.rest.length) : Reaches s s' := by
  refine ⟨0, by omega, fun fuel tokens h => ?_⟩
  rw [Nat.zero_add]
  rw [run, running', if_neg Bool.false_ne_true] at h
  rw [run, running, if_neg Bool.false_ne_true, same]
  split at h
  · exact h
  · cases h

/-- The next token behind some blanks and breaks. -/
theorem next_settle (skip : skipBlanks s.inFlow s.keyAllowed false s.rest =
      (s''.keyAllowed, s''.rest))
    (drop : dropStale { s with keyAllowed := s''.keyAllowed, rest := s''.rest } = .ok s'')
    (still : skipBlanks s''.inFlow s''.keyAllowed false s''.rest = (s''.keyAllowed, s''.rest))
    (fresh : s''.dropStale = .ok s'') : s.next = s''.next := by
  rw [next, next, skip, still]
  simp only [drop, fresh]

/-- The indentation of the next token is part of what stands in front of it. -/
theorem Reaches.spaces (bare : Bare cs) (k : Nat) :
    Reaches (block m (spaces k ++ cs) ts indents allowed none)
      (block (m.past (spaces k)) cs ts indents allowed none) := by
  refine .of_next rfl rfl
    (next_settle (skipBlanks_spaces bare k) rfl (skipBlanks_bare bare false) rfl) ?_
  simp [block]

theorem Reaches.line (bare : Bare cs) (k : Nat) (passing : Passing m key?) :
    Reaches (block m ('\n' :: (Yaml.spaces k ++ cs)) ts indents allowed key?)
      (block (m.past ('\n' :: Yaml.spaces k)) cs ts indents true none) := by
  have later : m.line < (m.past ('\n' :: Yaml.spaces k)).line :=
    Mark.line_past_of_break m ⟨'\n', List.mem_cons_self, by decide⟩
  refine .of_next rfl rfl
    (next_settle (skipBlanks_line bare k) ?_ (skipBlanks_bare bare false) rfl) ?_
  · cases key? with
    | none => rfl
    | some key =>
      obtain ⟨free, line⟩ := passing key rfl
      exact dropStale_free (Or.inl (Nat.lt_of_le_of_lt line later)) free
  · simp only [block, Text.length_placed, List.length_cons, List.length_append]
    omega

/-! Closing collections. -/

/-- All open block collections start left of a column, or at it. -/
def Within (column : Nat) (indents : List Nat) : Prop := ∀ i, indents.head? = some i → i ≤ column

theorem takeWhile_within {column : Nat} (within : Within column indents) :
    indents.takeWhile (fun i : Nat => decide ((column : Int) < i)) = [] := by
  cases indents with
  | nil => rfl
  | cons i indents =>
    have left := within i rfl
    refine List.takeWhile_cons_of_neg ?_
    simp only [decide_eq_true_eq]
    omega

theorem closeBlocks_within {column : Nat} (within : Within column indents) :
    (block m cs ts indents allowed key?).closeBlocks column =
      block m cs ts indents allowed key? := by
  rw [closeBlocks]
  simp only [block, takeWhile_within within]
  rfl

/-- A collection that starts right of the next token has been closed. -/
theorem Reaches.close {i : Nat} (ts : List Token) (outer : List Nat) (allowed : Bool)
    (bare : Bare cs) (outside : m.column < i) :
    ∃ t : Token, t.kind = .blockEnd ∧ Reaches (block m cs ts (i :: outer) allowed none)
      (block m cs (t :: ts) outer allowed none) := by
  refine ⟨⟨.blockEnd, m, m⟩, rfl, .of_next rfl rfl ?_ (Nat.le_refl _)⟩
  have right : decide ((m.column : Int) < i) = true := by
    rw [decide_eq_true_eq]
    omega
  have closed : (block m cs ts (i :: outer) allowed none).closeBlocks m.column =
      (block m cs (⟨.blockEnd, m, m⟩ :: ts) outer allowed none).closeBlocks m.column := by
    rw [closeBlocks, closeBlocks]
    simp only [block]
    rw [List.takeWhile_cons_of_pos (p := fun j : Nat => decide ((m.column : Int) < j)) right]
    simp only [inFlow, List.length_cons, List.length_nil, List.foldl_cons, List.drop_succ_cons,
      push, mark, Text.mark_placed]
    rfl
  have skip (ts : List Token) (indents : List Nat) : skipBlanks
      (block m cs ts indents allowed none).inFlow (block m cs ts indents allowed none).keyAllowed
      false (block m cs ts indents allowed none).rest = (allowed, placed m cs) :=
    skipBlanks_bare bare false
  have column (ts : List Token) (indents : List Nat) :
      (block m cs ts indents allowed none).rest.column = m.column := Text.column_placed
  rw [next, next, skip, skip]
  show (do let s ← dropStale (block m cs ts (i :: outer) allowed none); _) = (do
    let s ← dropStale (block m cs (⟨.blockEnd, m, m⟩ :: ts) outer allowed none); _)
  rw [dropStale_none, dropStale_none]
  simp only [bind, Except.bind, column, closed]

/-- Nothing is skipped, forgotten or closed before the next token. -/
structure Still (s : Scan) : Prop where
  skip : skipBlanks s.inFlow s.keyAllowed false s.rest = (s.keyAllowed, s.rest)
  fresh : s.dropStale = .ok s
  closed : s.closeBlocks s.rest.column = s

theorem still_block (bare : Bare cs) (within : Within m.column indents) :
    Still (block m cs ts indents allowed none) := by
  refine ⟨skipBlanks_bare bare false, rfl, ?_⟩
  show closeBlocks (placed m cs).column _ = _
  rw [Text.column_placed]
  exact closeBlocks_within within

theorem atMarker_of_ne {c d : Char} (other : (c == d) = false) :
    Text.atMarker d (placed m (c :: cs)) = false := by
  simp [Text.atMarker, other]

namespace Still
variable (still : Still s)
include still

theorem next_dash (rest : s.rest = placed m ('-' :: cs))
    (blank : isBlankOrEnd (cs.headD endOfText)) :
    s.next = s.blockEntry := by
  rw [← Text.peek_placed (m.step '-')] at blank
  have other : Text.peek (placed (m.step '-') cs) ≠ '-' := by
    intro same
    rw [same] at blank
    exact absurd blank (by decide)
  have noMarker : Text.atMarker '-' (placed m ('-' :: cs)) = false := by
    simp [Text.atMarker, other]
  have noEnd : isEnd '-' = false := by decide
  rw [next, still.skip]
  simp only [still.fresh, bind, Except.bind, still.closed]
  simp [rest, noMarker, atMarker_of_ne, blank, noEnd]

theorem next_end (rest : s.rest = placed m []) : s.next = s.streamEnd := by
  have noEnd : isEnd endOfText := by decide
  rw [next, still.skip]
  simp only [still.fresh, bind, Except.bind, still.closed]
  simp [rest, noEnd]

theorem next_question (rest : s.rest = placed m ('?' :: cs))
    (blank : isBlankOrEnd (cs.headD endOfText)) : s.next = s.key := by
  rw [← Text.peek_placed (m.step '?')] at blank
  have noEnd : isEnd '?' = false := by decide
  rw [next, still.skip]
  simp only [still.fresh, bind, Except.bind, still.closed]
  simp [rest, atMarker_of_ne, blank, noEnd]

theorem next_colon (rest : s.rest = placed m (':' :: cs))
    (blank : isBlankOrEnd (cs.headD endOfText)) : s.next = s.value := by
  rw [← Text.peek_placed (m.step ':')] at blank
  have noEnd : isEnd ':' = false := by decide
  rw [next, still.skip]
  simp only [still.fresh, bind, Except.bind, still.closed]
  simp [rest, atMarker_of_ne, blank, noEnd]

theorem next_bracket (rest : s.rest = placed m ('[' :: cs)) :
    s.next = s.flowStart .flowSequenceStart := by
  have noEnd : isEnd '[' = false := by decide
  rw [next, still.skip]
  simp only [still.fresh, bind, Except.bind, still.closed]
  simp [rest, atMarker_of_ne, noEnd]

theorem next_closingBracket (rest : s.rest = placed m (']' :: cs)) :
    s.next = s.flowEnd .flowSequenceEnd := by
  have noEnd : isEnd ']' = false := by decide
  rw [next, still.skip]
  simp only [still.fresh, bind, Except.bind, still.closed]
  simp [rest, atMarker_of_ne, noEnd]

theorem next_brace (rest : s.rest = placed m ('{' :: cs)) :
    s.next = s.flowStart .flowMappingStart := by
  have noEnd : isEnd '{' = false := by decide
  rw [next, still.skip]
  simp only [still.fresh, bind, Except.bind, still.closed]
  simp [rest, atMarker_of_ne, noEnd]

theorem next_closingBrace (rest : s.rest = placed m ('}' :: cs)) :
    s.next = s.flowEnd .flowMappingEnd := by
  have noEnd : isEnd '}' = false := by decide
  rw [next, still.skip]
  simp only [still.fresh, bind, Except.bind, still.closed]
  simp [rest, atMarker_of_ne, noEnd]

theorem next_bar (rest : s.rest = placed m ('|' :: cs)) (flat : s.inFlow = false) :
    s.next = s.blockScalar .literal := by
  have noEnd : isEnd '|' = false := by decide
  rw [next, still.skip]
  simp only [still.fresh, bind, Except.bind, still.closed]
  simp [rest, atMarker_of_ne, noEnd, flat]

theorem next_quote (rest : s.rest = placed m ('\'' :: cs)) :
    s.next = s.quotedScalar .singleQuoted := by
  have noEnd : isEnd '\'' = false := by decide
  rw [next, still.skip]
  simp only [still.fresh, bind, Except.bind, still.closed]
  simp [rest, atMarker_of_ne, noEnd]

theorem next_doubleQuote (rest : s.rest = placed m ('"' :: cs)) :
    s.next = s.quotedScalar .doubleQuoted := by
  have noEnd : isEnd '"' = false := by decide
  rw [next, still.skip]
  simp only [still.fresh, bind, Except.bind, still.closed]
  simp [rest, atMarker_of_ne, noEnd]

theorem next_plain {c : Char} (rest : s.rest = placed m (c :: cs)) (flat : s.inFlow = false)
    (opening : isOpening c = false) (dense : isBlankOrEnd c = false)
    (before : c = '?' ∨ c = ':' ∨ c = '-' → isBlankOrEnd (cs.headD endOfText) = false)
    (noMarker : (placed m (c :: cs)).atDocumentMarker = false) : s.next = s.plainScalar := by
  rw [← Text.peek_placed (m.step c)] at before
  simp only [isOpening, Bool.or_eq_false_iff, beq_eq_false_iff_ne] at opening
  simp only [Text.atDocumentMarker, Bool.or_eq_false_iff] at noMarker
  have solid := dense
  simp only [isBlankOrEnd, Bool.or_eq_false_iff] at solid
  rw [next, still.skip]
  simp only [still.fresh, bind, Except.bind, still.closed]
  by_cases special : c = '?' ∨ c = ':' ∨ c = '-'
  · have next := before special
    have noBlank := next
    simp only [isBlankOrEnd, Bool.or_eq_false_iff] at noBlank
    rcases special with rfl | rfl | rfl <;>
      simp [rest, noMarker, next, noBlank, flat, solid, isIndicator]
  · simp only [not_or] at special
    simp [rest, noMarker, flat, solid, opening, special, isIndicator]

end Still

/-! Opening collections. -/

/-- The columns of the open block collections, with one at a column that is open already or not. -/
def columns (opened : Bool) (n : Nat) (outer : List Nat) : List Nat :=
  if opened then n :: outer else outer

/-- A collection at the column is open already, or can be opened. -/
def CanOpen (opened : Bool) (n : Nat) (outer : List Nat) : Prop :=
  opened = false → ∀ i, outer.head? = some i → i < n

theorem CanOpen.within {opened : Bool} (h : CanOpen opened n outer) :
    Within n (columns opened n outer) := by
  intro i hi
  cases opened with
  | true =>
    obtain rfl : n = i := by simpa [columns] using hi
    exact Nat.le_refl n
  | false => exact Nat.le_of_lt (h rfl i hi)

theorem CanOpen.openBlock {opened : Bool} (h : CanOpen opened n outer) (flat : s.inFlow = false)
    (indents : s.indents = columns opened n outer) (before : Nat) (kind : Kind) (at_ : Mark) :
    s.openBlock n before kind at_ =
      if opened then s else { s.pushAt before kind at_ with indents := n :: outer } := by
  rw [Scan.openBlock, flat, indent, indents]
  cases opened with
  | true => simp [columns]
  | false =>
    cases outer with
    | nil =>
      have : (-1 : Int) < n := by omega
      simp only [columns, this, Bool.false_eq_true, if_false, Bool.not_false, Bool.true_and,
        decide_true, if_true]
    | cons i outer =>
      have := h rfl i rfl
      simp [columns, this]

/-- A token is put in behind the first ones. -/
theorem pushAt_block {node : List Token} {kind : Kind} {at_ : Mark} :
    (block m cs (node ++ ts) indents allowed key?).pushAt ts.length kind at_ =
      block m cs (node ++ ⟨kind, at_, at_⟩ :: ts) indents allowed key? := by
  have place : (node ++ ts).length - ts.length = node.length := by
    rw [List.length_append, Nat.add_sub_cancel]
  have inserted : (node ++ ts).insertIdx node.length ⟨kind, at_, at_⟩ =
      node ++ ⟨kind, at_, at_⟩ :: ts :=
    List.modifyTailIdx_add (List.cons (⟨kind, at_, at_⟩ : Token)) 0 node ts
  simp only [pushAt, block, place, inserted]
  simp only [List.length_append, List.length_cons, Nat.add_assoc]

theorem CanOpen.openBlock_block {opened : Bool} {tokens node : List Token}
    (h : CanOpen opened n outer) (shape : tokens = node ++ ts) (m : Mark) (cs : List Char)
    (allowed : Bool) (key? : Option PossibleKey) (kind : Kind) (at_ : Mark) :
    ∃ start : List Token, start.map (·.kind) = (if opened then [] else [kind]) ∧
      (block m cs tokens (columns opened n outer) allowed key?).openBlock n ts.length kind at_ =
        block m cs (node ++ (start ++ ts)) (n :: outer) allowed key? := by
  subst shape
  rw [h.openBlock rfl rfl, pushAt_block]
  cases opened with
  | true => exact ⟨[], rfl, rfl⟩
  | false => exact ⟨[⟨kind, at_, at_⟩], rfl, rfl⟩

theorem bare_indicator {c : Char} (h : c = '-' ∨ c = '?' ∨ c = ':') : Bare (c :: cs) := by
  rcases h with rfl | rfl | rfl <;>
    exact .cons ⟨by decide, by decide⟩ (by decide) (by decide)

/-- What an indicator does first: it opens a collection at its column, or goes on with the one that
is open there. -/
theorem CanOpen.opens {opened : Bool} (can : CanOpen opened m.column outer) (cs : List Char)
    (ts : List Token) (problem : Problem) (kind : Kind) (f : Scan → Scan) :
    ∃ start : List Token, start.map (·.kind) = (if opened then [] else [kind]) ∧
      let s := block m cs ts (columns opened m.column outer) true none
      (do
        s.checkAllowed problem
        let s ← (s.openBlock s.rest.column s.count kind s.mark).clearKey
        return f s) = .ok (f (block m cs (start ++ ts) (m.column :: outer) true none)) := by
  obtain ⟨start, kinds, openBlock⟩ := can.openBlock_block (List.nil_append ts).symm m cs true none
    kind m
  refine ⟨start, kinds, ?_⟩
  simp only [checkAllowed, inFlow_block, keyAllowed_block, rest_block, count_block, mark_block,
    Text.column_placed, openBlock, Bool.not_true, Bool.and_false, Bool.false_eq_true, if_false]
  rfl

/-- A dash. -/
theorem Reaches.dash {opened : Bool} (ts : List Token) (can : CanOpen opened m.column outer)
    (blank : isBlankOrEnd (cs.headD endOfText)) :
    ∃ ts' : List Token, ts'.map (·.kind) =
        .blockEntry :: (if opened then [] else [.blockSequenceStart]) ∧
      Reaches (block m ('-' :: cs) ts (columns opened m.column outer) true none)
        (block (m.step '-') cs (ts' ++ ts) (m.column :: outer) true none) := by
  obtain ⟨start, kinds, opens⟩ := can.opens ('-' :: cs) ts .sequenceEntryNotAllowed
    .blockSequenceStart fun s => { s.take .blockEntry (s.rest.drop 1) with keyAllowed := true }
  have still : Still (block m ('-' :: cs) ts (columns opened m.column outer) true none) :=
    still_block (bare_indicator (Or.inl rfl)) can.within
  refine ⟨⟨.blockEntry, m, m.step '-'⟩ :: start, by simp [kinds],
    .step rfl (((still.next_dash rfl blank).trans opens).trans ?_) dropStale_none (by simp [block])⟩
  rw [rest_block, Text.drop_placed, take_block]
  rfl

/-- A question mark. -/
theorem Reaches.question {opened : Bool} (ts : List Token) (can : CanOpen opened m.column outer)
    (blank : isBlankOrEnd (cs.headD endOfText)) :
    ∃ ts' : List Token, ts'.map (·.kind) =
        .key :: (if opened then [] else [.blockMappingStart]) ∧
      Reaches (block m ('?' :: cs) ts (columns opened m.column outer) true none)
        (block (m.step '?') cs (ts' ++ ts) (m.column :: outer) true none) := by
  obtain ⟨start, kinds, opens⟩ := can.opens ('?' :: cs) ts .keyNotAllowed .blockMappingStart
    fun s => { s.take .key (s.rest.drop 1) with keyAllowed := !s.inFlow }
  have still : Still (block m ('?' :: cs) ts (columns opened m.column outer) true none) :=
    still_block (bare_indicator (Or.inr (Or.inl rfl))) can.within
  refine ⟨⟨.key, m, m.step '?'⟩ :: start, by simp [kinds],
    .step rfl (((still.next_question rfl blank).trans opens).trans ?_) dropStale_none
      (by simp [block])⟩
  rw [rest_block, Text.drop_placed, take_block]
  rfl

/-- The colon behind a long key. -/
theorem Reaches.colon (ts : List Token) (outer : List Nat)
    (blank : isBlankOrEnd (cs.headD endOfText)) :
    ∃ t : Token, t.kind = .value ∧
      Reaches (block m (':' :: cs) ts (m.column :: outer) true none)
        (block (m.step ':') cs (t :: ts) (m.column :: outer) true none) := by
  have can : CanOpen true m.column outer := fun h => nomatch h
  have still : Still (block m (':' :: cs) ts (m.column :: outer) true none) :=
    still_block (bare_indicator (Or.inr (Or.inr rfl))) can.within
  have openBlock := can.openBlock (s := block m (':' :: cs) ts (m.column :: outer) true none) rfl rfl
    ts.length .blockMappingStart m
  refine ⟨⟨.value, m, m.step ':'⟩, rfl, .step rfl ?_ dropStale_none (by simp [block])⟩
  rw [still.next_colon rfl blank]
  simp only [Scan.value, keys_block, checkAllowed, inFlow_block, keyAllowed_block, rest_block,
    count_block, mark_block, Text.column_placed, openBlock, bind, Except.bind, Bool.not_true,
    Bool.not_false, Bool.and_false, Bool.false_eq_true, if_false, if_true, Text.drop_placed, pure,
    Except.pure]
  exact congrArg Except.ok (Eq.trans (b := Scan.take (block m (':' :: cs) ts (m.column :: outer) true
    none) .value (placed (m.step ':') cs)) rfl take_block)

/-- A place that is still near enough to belong to a key. -/
structure Near (m m' : Mark) : Prop where
  line : m'.line ≤ m.line
  offset : m'.offset ≤ m.offset + 1024
  column : m.column ≤ m'.column

theorem near_past (m : Mark) (unbroken : ∀ c ∈ cs, isBreak c = false)
    (short : Mark.bytes cs ≤ 1024) :
    Near m (m.past cs) := by
  have across := Mark.across_past m unbroken
  have offset := across.offset
  have column := across.column
  exact ⟨Nat.le_of_eq across.line, by omega, by omega⟩

/-- The colon behind a short key: the key and the start of a new mapping are put in front of it. -/
theorem Reaches.shortKey {opened : Bool} {m' : Mark} (node ts : List Token) (required : Bool)
    (can : CanOpen opened m.column outer) (blank : isBlankOrEnd (cs.headD endOfText))
    (near : Near m m') :
    ∃ ts' : List Token, ts'.map (·.kind) = .value :: (node.map (·.kind) ++
        .key :: (if opened then [] else [.blockMappingStart])) ∧
      Reaches (block m' (':' :: cs) (node ++ ts) (columns opened m.column outer) false
          (some ⟨ts.length, required, m⟩))
        (block (m'.step ':') cs (ts' ++ ts) (m.column :: outer) false none) := by
  have bare : Bare (':' :: cs) := bare_indicator (Or.inr (Or.inr rfl))
  have still : Still (block m' (':' :: cs) (node ++ ts) (columns opened m.column outer) false
      (some ⟨ts.length, required, m⟩)) := by
    refine ⟨skipBlanks_bare bare false, dropStale_fresh near.line near.offset, ?_⟩
    rw [rest_block, Text.column_placed]
    exact closeBlocks_within fun i hi => Nat.le_trans (can.within i hi) near.column
  have shape : node ++ ⟨.key, m, m⟩ :: ts = node ++ [⟨.key, m, m⟩] ++ ts := by
    rw [List.append_assoc, List.singleton_append]
  obtain ⟨start, kinds, openBlock⟩ := can.openBlock_block shape m' (':' :: cs) false
    (some ⟨ts.length, required, m⟩) .blockMappingStart m
  refine ⟨⟨.value, m', m'.step ':'⟩ :: (node ++ ⟨.key, m, m⟩ :: start), by simp [kinds],
    .step rfl ?_ dropStale_none (by simp [block])⟩
  rw [still.next_colon rfl blank]
  simp only [Scan.value, keys_block, pushAt_block, openBlock, bind, Except.bind, pure, Except.pure,
    rest_block, Text.drop_placed]
  refine congrArg Except.ok (Eq.trans (b := Scan.take (block m' (':' :: cs)
    (node ++ [⟨.key, m, m⟩] ++ (start ++ ts)) (m.column :: outer) false none) .value
      (placed (m'.step ':') cs)) rfl ?_)
  rw [take_block]
  simp

/-! Scalars and empty collections. -/

/-- The possible key that a scalar is. -/
def saved (m : Mark) (ts : List Token) (indents : List Nat) (allowed : Bool) : Option PossibleKey :=
  if allowed then some ⟨ts.length, indents.head? == some m.column, m⟩ else none

theorem saveKey_block : (block m cs ts indents allowed none).saveKey =
    .ok (block m cs ts indents allowed (saved m ts indents allowed)) := by
  have required : ((block m cs ts indents allowed none).indent == (m.column : Int)) =
      (indents.head? == some m.column) := by
    rw [indent]
    cases indents with
    | nil => simp [block]
    | cons i indents =>
      show ((i : Int) == m.column) = (some i == some m.column)
      rw [Bool.eq_iff_iff, beq_iff_eq, beq_iff_eq, Option.some_inj]
      omega
  cases allowed with
  | false => rfl
  | true =>
    simp only [saveKey, keyAllowed_block, if_true, clearKey_block, bind, Except.bind, inFlow_block,
      Bool.not_false, Bool.true_and, rest_block, Text.column_placed, count_block, mark_block, saved,
      required]
    rfl

/-- A quoted scalar. -/
theorem quotedScalar_block {style : Style} {q : Char} {body after : List Char}
    (reads : ∀ start fuel, body.length < fuel →
      quoted (style == .singleQuoted) start fuel (placed (m.step q) (body ++ q :: after)) =
        .ok (cs, placed ((m.step q).past (body ++ [q])) after)) (ts : List Token)
    (indents : List Nat) (allowed : Bool) :
    ∃ t : Token, t.kind = .scalar (String.ofList cs) style ∧
      (block m (q :: (body ++ q :: after)) ts indents allowed none).quotedScalar style =
        .ok (block (m.past (q :: (body ++ [q]))) after (t :: ts) indents false
          (saved m ts indents allowed)) := by
  refine ⟨⟨_, m, m.past (q :: (body ++ [q]))⟩, rfl, ?_⟩
  have enough : body.length < (q :: (body ++ q :: after)).length + 1 := by
    simp only [List.length_cons, List.length_append]
    omega
  simp only [quotedScalar, saveKey_block, bind, Except.bind, rest_block, mark_block,
    Text.drop_placed, Text.length_placed, reads m _ enough, take_block]
  rfl

/-- The least indentation of the lines of a plain scalar. -/
def lineIndent (indents : List Nat) : Nat := (indents.head?.map (· + 1)).getD 0

/-- A plain scalar. -/
theorem plainScalar_block {after tail : List Char} {broken : Bool} {m' : Mark} (text : PlainText cs)
    (within : Within m.column indents)
    (noMarker : (placed m (cs ++ after)).atDocumentMarker = false)
    (ends : PlainEnd (lineIndent indents) (m.past cs) after broken m' tail) (ts : List Token)
    (allowed : Bool) :
    ∃ t : Token, t.kind = .scalar (String.ofList cs) .plain ∧
      (block m (cs ++ after) ts indents allowed none).plainScalar =
        .ok (block m' tail (t :: ts) indents broken (saved m ts indents allowed)) := by
  refine ⟨⟨_, m, m'⟩, rfl, ?_⟩
  have indentation (key? : Option PossibleKey) :
      ((block m (cs ++ after) ts indents allowed key?).indent + 1).toNat = lineIndent indents := by
    rw [indent]
    cases indents with
    | nil => rfl
    | cons i indents =>
      show ((i : Int) + 1).toNat = i + 1
      omega
  have left : lineIndent indents ≤ m.column + 1 := by
    cases indents with
    | nil => exact Nat.zero_le _
    | cons i indents => exact Nat.succ_le_succ (within i rfl)
  have comment : cs.head? ≠ some '#' := by
    obtain ⟨c, rest, rfl, opening, _⟩ := text.starts
    intro same
    obtain rfl : c = '#' := by simpa using same
    exact absurd opening (by decide)
  have enough : cs.length < (cs ++ after).length + 1 := by
    rw [List.length_append]
    omega
  have reads (start : Mark) : plain false (lineIndent indents) start _ {} _ = _ :=
    plain_placed text.words comment noMarker left ends enough {}
  simp only [plainScalar, saveKey_block, bind, Except.bind, inFlow_block, rest_block, mark_block,
    indentation, Text.length_placed, reads, take_block]
  rfl

/-- A text that is read as some tokens behind an indicator of the collection at a column, up to the
next line, which is not indented further. -/
def ReadsLine (n : Nat) (text : List Char) (kinds : List Kind) : Prop :=
  ∀ (m : Mark) (ts : List Token) (outer : List Nat) (allowed : Bool) (k : Nat) (tail : List Char),
    n < m.column → k ≤ n → Bare tail →
    ∃ node : List Token, node.map (·.kind) = kinds.reverse ∧
      Reaches (block m (text ++ (spaces k ++ tail)) ts (n :: outer) allowed none)
        (block (m.past (text ++ spaces k)) tail (node ++ ts) (n :: outer) true none)

/-- A text that is read as some tokens where it is a short key. -/
def ReadsKey (text : List Char) (kinds : List Kind) : Prop :=
  ∀ (m : Mark) (ts : List Token) (indents : List Nat) (after : List Char),
    Within m.column indents → isBlankOrEnd (after.headD endOfText) → Near m (m.past text) ∧
    ∃ node : List Token, node.map (·.kind) = kinds.reverse ∧ ∃ required,
      Reaches (block m (text ++ ':' :: after) ts indents true none)
        (block (m.past text) (':' :: after) (node ++ ts) indents false
          (some ⟨ts.length, required, m⟩))

theorem passing_saved {m' : Mark} (right : n < m.column) (line : m.line ≤ m'.line) :
    Passing m' (saved m ts (n :: outer) allowed) := by
  intro key h
  cases allowed with
  | false => cases h
  | true =>
    obtain rfl := Option.some.inj h
    refine ⟨?_, line⟩
    show (some n == some m.column) = false
    simp
    omega

theorem dropStale_passed {m' : Mark} {held : List Nat} (passing : Passing m key?)
    (later : m.line < m'.line) :
    (block m' cs ts held allowed key?).dropStale = .ok (block m' cs ts held allowed none) := by
  cases key? with
  | none => rfl
  | some key =>
    obtain ⟨free, line⟩ := passing key rfl
    exact dropStale_free (Or.inl (Nat.lt_of_le_of_lt line later)) free

theorem within_cons (right : n < m.column) : Within m.column (n :: outer) := by
  intro i hi
  obtain rfl : n = i := by simpa using hi
  exact Nat.le_of_lt right

/-- A token, and the line break behind it. -/
theorem Reaches.lastOfLine {k : Nat} {tail : List Char} (running : s.ended = false)
    (next : s.next = .ok (block m ('\n' :: (Yaml.spaces k ++ tail)) ts indents allowed key?))
    (passing : Passing m key?) (bare : Bare tail) (shorter : k + tail.length + 2 < s.rest.length) :
    Reaches s (block (m.past ('\n' :: Yaml.spaces k)) tail ts indents true none) := by
  obtain ⟨kept, passes, dropped⟩ := dropStale_passing passing
  refine (Reaches.step running next dropped ?_).trans (.line bare k passes)
  simp only [rest_block, Text.length_placed, List.length_cons, List.length_append, Yaml.spaces,
    List.length_replicate]
  omega

theorem Still.next_plainText {after : List Char} (still : Still s) (text : PlainText cs)
    (rest : s.rest = placed m (cs ++ after)) (flat : s.inFlow = false)
    (noMarker : (placed m (cs ++ after)).atDocumentMarker = false) : s.next = s.plainScalar := by
  have bare := text.bare after
  obtain ⟨c, more, rfl, opening, before⟩ := text.starts
  have noEnd := isPrintable_not_end (text.printable c List.mem_cons_self)
  have dense : isBlankOrEnd c = false := by
    have blank : isBlank c = false := bare.blank
    have unbroken : isBreak c = false := bare.unbroken
    simp [isBlankOrEnd, blank, unbroken, noEnd]
  refine still.next_plain rest flat opening dense (fun special => ?_) noMarker
  have next := before special
  cases more with
  | nil => exact absurd next (by decide)
  | cons d more => exact next

theorem readsLine_plain (text : PlainText cs) :
    ReadsLine n (cs ++ ['\n']) [.scalar (String.ofList cs) .plain] := by
  intro m ts outer allowed k tail right inside bare
  have ends : PlainEnd (lineIndent (n :: outer)) (m.past cs) ('\n' :: Yaml.spaces k ++ tail) true
      ((m.past cs).past ('\n' :: Yaml.spaces k)) tail :=
    .line bare.toSolid (Nat.lt_succ_of_le inside)
  have noMarker : (placed m (cs ++ ('\n' :: Yaml.spaces k ++ tail))).atDocumentMarker = false :=
    Text.atDocumentMarker_of_column (Nat.ne_of_gt (Nat.zero_lt_of_lt right))
  obtain ⟨t, kind, reads⟩ := plainScalar_block text (within_cons right) noMarker ends ts allowed
  have still :
      Still (block m (cs ++ ('\n' :: Yaml.spaces k ++ tail)) ts (n :: outer) allowed none) :=
    still_block (text.bare _) (within_cons right)
  have later : m.line < ((m.past cs).past ('\n' :: Yaml.spaces k)).line := by
    rw [← Mark.past_append]
    exact Mark.line_past_of_break m ⟨'\n', by simp, by decide⟩
  have written : cs ++ ['\n'] ++ (Yaml.spaces k ++ tail) =
      cs ++ ('\n' :: Yaml.spaces k ++ tail) := by
    simp
  have past : m.past (cs ++ ['\n'] ++ Yaml.spaces k) =
      (m.past cs).past ('\n' :: Yaml.spaces k) := by
    rw [List.append_assoc, Mark.past_append]
    rfl
  refine ⟨[t], by simp [kind], ?_⟩
  rw [written, past]
  refine .step rfl ((still.next_plainText text rfl rfl noMarker).trans reads)
    (dropStale_passed (passing_saved right (Nat.le_refl _)) later) ?_
  simp only [rest_block, Text.length_placed, List.length_append, List.length_cons]
  omega

/-- A document marker is three equal characters. -/
theorem take_of_atMarker {d : Char} (visible : d ≠ endOfText) (h : Text.atMarker d (placed m cs)) :
    cs.take 3 = [d, d, d] := by
  simp only [Text.atMarker, Bool.and_eq_true, beq_iff_eq] at h
  obtain ⟨⟨⟨⟨_, first⟩, second⟩, third⟩, _⟩ := h
  rcases cs with _ | ⟨a, _ | ⟨b, _ | ⟨c, cs⟩⟩⟩
  · exact absurd first.symm visible
  · exact absurd second.symm visible
  · exact absurd third.symm visible
  · obtain rfl : a = d := first
    obtain rfl : b = a := second
    obtain rfl : c = b := third
    rfl

theorem noMarker_key {after : List Char} (text : PlainText cs) :
    (placed m (cs ++ ':' :: after)).atDocumentMarker = false := by
  have other (d : Char) (visible : d ≠ endOfText) (noColon : d ≠ ':')
      (line : cs.take 3 ≠ [d, d, d]) : Text.atMarker d (placed m (cs ++ ':' :: after)) = false := by
    rw [← Bool.not_eq_true]
    intro h
    have marker := take_of_atMarker visible h
    rcases cs with _ | ⟨a, _ | ⟨b, _ | ⟨c, cs⟩⟩⟩
    · exact absurd (by simpa using congrArg List.head? marker) noColon.symm
    · simp at marker; exact absurd marker.2.1.symm noColon
    · simp at marker; exact absurd marker.2.2.symm noColon
    · exact line marker
  have marker := text.marker
  simp only [isMarkerLine, Bool.or_eq_false_iff, beq_eq_false_iff_ne] at marker
  rw [Text.atDocumentMarker, other '-' (by decide) (by decide) marker.1,
    other '.' (by decide) (by decide) marker.2]
  rfl

theorem readsKey_plain (text : PlainText cs) (short : Mark.bytes cs ≤ 1024) :
    ReadsKey cs [.scalar (String.ofList cs) .plain] := by
  intro m ts indents after within blank
  have ends : PlainEnd (lineIndent indents) (m.past cs) (':' :: after) false (m.past cs)
      (':' :: after) := .colon blank
  obtain ⟨t, kind, reads⟩ := plainScalar_block text within (noMarker_key text) ends ts true
  have still : Still (block m (cs ++ ':' :: after) ts indents true none) :=
    still_block (text.bare _) within
  have near := near_past m text.words.unbroken short
  refine ⟨near, [t], by simp [kind], _, .step rfl
    ((still.next_plainText text rfl rfl (noMarker_key text)).trans reads)
    (dropStale_fresh near.line near.offset) ?_⟩
  have nonempty : 0 < cs.length := List.length_pos_iff.mpr text.words.nonempty
  simp only [rest_block, Text.length_placed, List.length_append]
  omega

/-- What stands between quotes is read. -/
def ReadsQuoted (style : Style) (q : Char) (body cs : List Char) : Prop :=
  ∀ (start m : Mark) (fuel : Nat) (after : List Char), m.column ≠ 0 → after.head? ≠ some '\'' →
    body.length < fuel →
    quoted (style == .singleQuoted) start fuel (placed m (body ++ q :: after)) =
      .ok (cs, placed (m.past (body ++ [q])) after)

/-- A quote, and the style that it stands for. -/
def IsQuote (q : Char) (style : Style) : Prop :=
  (q = '\'' ∧ style = .singleQuoted) ∨ (q = '"' ∧ style = .doubleQuoted)

theorem IsQuote.bare {q : Char} {style : Style} (quote : IsQuote q style) : Bare (q :: cs) := by
  rcases quote with ⟨rfl, rfl⟩ | ⟨rfl, rfl⟩ <;>
    exact .cons ⟨by decide, by decide⟩ (by decide) (by decide)

theorem IsQuote.unbroken {q : Char} {style : Style} (quote : IsQuote q style) :
    isBreak q = false := by
  rcases quote with ⟨rfl, rfl⟩ | ⟨rfl, rfl⟩ <;> decide

theorem IsQuote.next {q : Char} {style : Style} (quote : IsQuote q style) (still : Still s)
    (rest : s.rest = placed m (q :: cs)) : s.next = s.quotedScalar style := by
  rcases quote with ⟨rfl, rfl⟩ | ⟨rfl, rfl⟩
  · exact still.next_quote rest
  · exact still.next_doubleQuote rest

theorem next_quoted (after : List Char) {style : Style} {q : Char} {body : List Char}
    (quote : IsQuote q style)
    (reads : ReadsQuoted style q body cs) (within : Within m.column indents)
    (other : after.head? ≠ some '\'') (ts : List Token) (allowed : Bool) :
    ∃ t : Token, t.kind = .scalar (String.ofList cs) style ∧
      (block m (q :: (body ++ q :: after)) ts indents allowed none).next =
        .ok (block (m.past (q :: (body ++ [q]))) after (t :: ts) indents false
          (saved m ts indents allowed)) := by
  have column : (m.step q).column = m.column + 1 := Mark.column_step quote.unbroken
  obtain ⟨t, kind, scalar⟩ := quotedScalar_block (fun start fuel enough =>
    reads start (m.step q) fuel after (by omega) other enough) ts indents allowed
  have still : Still (block m (q :: (body ++ q :: after)) ts indents allowed none) :=
    still_block quote.bare within
  exact ⟨t, kind, (quote.next still rfl).trans scalar⟩

theorem readsLine_quoted {style : Style} {q : Char} {body : List Char} (quote : IsQuote q style)
    (reads : ReadsQuoted style q body cs) :
    ReadsLine n (q :: (body ++ [q, '\n'])) [.scalar (String.ofList cs) style] := by
  intro m ts outer allowed k tail right inside bare
  obtain ⟨t, kind, next⟩ := next_quoted ('\n' :: (Yaml.spaces k ++ tail)) quote reads
    (within_cons right) (by simp) ts allowed
  refine ⟨[t], by simp [kind], ?_⟩
  have written : q :: (body ++ [q, '\n']) ++ (Yaml.spaces k ++ tail) =
      q :: (body ++ q :: '\n' :: (Yaml.spaces k ++ tail)) := by
    simp
  have past : m.past (q :: (body ++ [q, '\n']) ++ Yaml.spaces k) =
      (m.past (q :: (body ++ [q]))).past ('\n' :: Yaml.spaces k) := by
    rw [← Mark.past_append]
    simp
  rw [written, past]
  refine .lastOfLine rfl next (passing_saved right (Mark.line_past m _)) bare ?_
  simp only [rest_block, Text.length_placed, List.length_append, List.length_cons, Yaml.spaces,
    List.length_replicate]
  omega

theorem readsKey_quoted {style : Style} {q : Char} {body : List Char} (quote : IsQuote q style)
    (reads : ReadsQuoted style q body cs) (unbroken : ∀ c ∈ body, isBreak c = false)
    (short : Mark.bytes body ≤ 1000) :
    ReadsKey (q :: (body ++ [q])) [.scalar (String.ofList cs) style] := by
  intro m ts indents after within blank
  obtain ⟨t, kind, next⟩ := next_quoted (':' :: after) quote reads within (by simp) ts true
  have line : ∀ c ∈ q :: (body ++ [q]), isBreak c = false := by
    intro c hc
    have all : c = q ∨ c ∈ body := by simpa [or_comm, or_assoc] using hc
    rcases all with rfl | hc
    · exact quote.unbroken
    · exact unbroken c hc
  have near : Near m (m.past (q :: (body ++ [q]))) := by
    have size : q.utf8Size ≤ 4 := Char.utf8Size_le_four q
    refine near_past m line ?_
    rw [Mark.bytes_cons, Mark.bytes_append, Mark.bytes_cons, Mark.bytes_nil]
    omega
  have written : q :: (body ++ [q]) ++ ':' :: after = q :: (body ++ q :: ':' :: after) := by simp
  refine ⟨near, [t], by simp [kind], indents.head? == some m.column, ?_⟩
  rw [written]
  refine .step rfl next (dropStale_fresh near.line near.offset) ?_
  · simp only [rest_block, Text.length_placed, List.length_append, List.length_cons]
    omega

/-- The brackets of an empty collection, and the tokens that they are. -/
def IsEmpty (o c : Char) (start stop : Kind) : Prop :=
  (o = '[' ∧ c = ']' ∧ start = .flowSequenceStart ∧ stop = .flowSequenceEnd) ∨
  (o = '{' ∧ c = '}' ∧ start = .flowMappingStart ∧ stop = .flowMappingEnd)

/-- Behind the opening bracket. -/
def inside (m : Mark) (cs : List Char) (ts : List Token) (indents : List Nat)
    (key? : Option PossibleKey) : Scan :=
  { rest := placed m cs, tokens := ts, count := ts.length, indents, keyAllowed := true,
    keys := [none, key?] }

theorem flowStart_block {o : Char} (start : Kind) :
    (block m (o :: cs) ts indents allowed none).flowStart start =
      .ok (inside (m.step o) cs (⟨start, m, m.step o⟩ :: ts) indents
        (saved m ts indents allowed)) := by
  simp only [flowStart, saveKey_block, bind, Except.bind, pure, Except.pure, rest_block,
    Text.drop_placed, take_block]
  rfl

theorem flowEnd_inside {c : Char} (stop : Kind) :
    (inside m (c :: cs) ts indents key?).flowEnd stop =
      .ok (block (m.step c) cs (⟨stop, m, m.step c⟩ :: ts) indents false key?) := by
  have rest : (inside m (c :: cs) ts indents key?).rest.drop 1 = placed (m.step c) cs := rfl
  simp only [flowEnd, clearKey, bind, Except.bind, pure, Except.pure, inside] at rest ⊢
  simp [rest, take, push, mark, inFlow, block]

/-- The key that was saved in front of the bracket is not forgotten behind it. -/
theorem dropStale_inside {o : Char} {ts' : List Token} (unbroken : isBreak o = false) :
    (inside (m.step o) cs ts' indents (saved m ts indents allowed)).dropStale =
      .ok (inside (m.step o) cs ts' indents (saved m ts indents allowed)) := by
  cases allowed with
  | false => rfl
  | true =>
    have size : o.utf8Size ≤ 4 := Char.utf8Size_le_four o
    have line : (m.step o).line = m.line ∧ (m.step o).offset = m.offset + o.utf8Size := by
      rw [Mark.step_of_not_break unbroken]
      exact ⟨rfl, rfl⟩
    have fresh (key : PossibleKey) (same : key.mark = m) :
        (inside (m.step o) cs ts' indents (some key)).isStale key = false := by
      simp only [isStale, mark, inside, Text.mark_placed, same, line, Nat.lt_irrefl, decide_false,
        Bool.false_or, decide_eq_false_iff_not]
      omega
    have kept := fresh ⟨ts.length, indents.head? == some m.column, m⟩ rfl
    rw [dropStale]
    simp only [inside, saved, if_true] at kept ⊢
    simp [kept, bind, Except.bind, pure, Except.pure]

section
variable {o c : Char} {start stop : Kind} (brackets : IsEmpty o c start stop)
include brackets

theorem IsEmpty.bare : Bare (o :: cs) := by
  rcases brackets with ⟨rfl, _⟩ | ⟨rfl, _⟩ <;>
    exact .cons ⟨by decide, by decide⟩ (by decide) (by decide)

theorem IsEmpty.unbroken : isBreak o = false ∧ isBreak c = false := by
  rcases brackets with ⟨rfl, rfl, _⟩ | ⟨rfl, rfl, _⟩ <;> decide

theorem Reaches.openBracket (within : Within m.column indents) :
    Reaches (block m (o :: cs) ts indents allowed none)
      (inside (m.step o) cs (⟨start, m, m.step o⟩ :: ts) indents (saved m ts indents allowed)) := by
  have still : Still (block m (o :: cs) ts indents allowed none) := still_block brackets.bare within
  refine .step rfl (Eq.trans ?_ (flowStart_block start)) (dropStale_inside brackets.unbroken.1)
    (by simp [inside])
  rcases brackets with ⟨rfl, _, rfl, _⟩ | ⟨rfl, _, rfl, _⟩
  · exact still.next_bracket rfl
  · exact still.next_brace rfl

theorem next_inside (ts' : List Token) :
    (inside (m.step o) (c :: cs) ts' indents (saved m ts indents allowed)).next =
      .ok (block (m.past [o, c]) cs (⟨stop, m.step o, m.past [o, c]⟩ :: ts') indents false
        (saved m ts indents allowed)) := by
  have bare : Bare (c :: cs) := by
    rcases brackets with ⟨_, rfl, _⟩ | ⟨_, rfl, _⟩ <;>
      exact .cons ⟨by decide, by decide⟩ (by decide) (by decide)
  have still : Still (inside (m.step o) (c :: cs) ts' indents (saved m ts indents allowed)) :=
    ⟨skipBlanks_bare bare true, dropStale_inside brackets.unbroken.1, rfl⟩
  refine Eq.trans ?_ (flowEnd_inside stop)
  rcases brackets with ⟨_, rfl, _, rfl⟩ | ⟨_, rfl, _, rfl⟩
  · exact still.next_closingBracket rfl
  · exact still.next_closingBrace rfl

theorem readsLine_empty : ReadsLine n [o, c, '\n'] [start, stop] := by
  intro m ts outer allowed k tail right inside bare
  refine ⟨[⟨stop, m.step o, m.past [o, c]⟩, ⟨start, m, m.step o⟩], rfl,
    (Reaches.openBracket brackets (within_cons right)).trans
      (.lastOfLine rfl (next_inside brackets _) (passing_saved right (Mark.line_past m [o, c]))
        bare ?_)⟩
  show k + tail.length + 2 < (placed (m.step o) (c :: '\n' :: (Yaml.spaces k ++ tail))).length
  simp only [Text.length_placed, List.length_append, List.length_cons, Yaml.spaces,
    List.length_replicate]
  omega

theorem readsKey_empty : ReadsKey [o, c] [start, stop] := by
  intro m ts indents after within blank
  have line : ∀ d ∈ [o, c], isBreak d = false := by
    simpa using brackets.unbroken
  have near : Near m (m.past [o, c]) := by
    have size : o.utf8Size ≤ 4 := Char.utf8Size_le_four o
    have size' : c.utf8Size ≤ 4 := Char.utf8Size_le_four c
    refine near_past m line ?_
    rw [Mark.bytes_cons, Mark.bytes_cons, Mark.bytes_nil]
    omega
  refine ⟨near, [⟨stop, m.step o, m.past [o, c]⟩, ⟨start, m, m.step o⟩], rfl,
    indents.head? == some m.column, (Reaches.openBracket brackets within).trans
      (.step rfl (next_inside brackets _) (dropStale_fresh near.line near.offset) ?_)⟩
  simp [inside]

end

theorem readsLine_literal (text : LiteralText cs) :
    ReadsLine n ('|' :: ((blockHints cs).toList ++ '\n' ::
      (indented (n + 2) false false true cs ++ lineEnd cs)))
      [.scalar (String.ofList cs) .literal] := by
  intro m ts outer allowed k tail right inside bare
  simp only [List.cons_append, List.append_assoc]
  have start : Bare ('|' :: ((blockHints cs).toList ++ '\n' ::
      (indented (n + 2) false false true cs ++ (lineEnd cs ++ (Yaml.spaces k ++ tail))))) :=
    .cons ⟨by decide, by decide⟩ (by decide) (by decide)
  have still : Still (block m _ ts (n :: outer) allowed none) :=
    still_block start (within_cons right)
  have indentation (rest : List Char) :
      (block m rest ts (n :: outer) allowed none).indent = n := rfl
  have reads := block_placed m (m.step '|') text inside bare.toSolid
  refine ⟨[⟨.scalar (String.ofList cs) .literal, m, m.past ('|' :: ((blockHints cs).toList ++ '\n' ::
    (indented (n + 2) false false true cs ++ (lineEnd cs ++ Yaml.spaces k))))⟩], rfl,
    .step rfl ((still.next_bar rfl rfl).trans ?_) dropStale_none ?_⟩
  · simp only [blockScalar, clearKey_block, bind, Except.bind, rest_block, mark_block, indentation,
      Text.drop_placed, beq_self_eq_true, reads, take_block]
    rfl
  · simp only [rest_block, Text.length_placed, List.length_append, List.length_cons]
    omega

end Scan
end Questionnaire.Yaml
