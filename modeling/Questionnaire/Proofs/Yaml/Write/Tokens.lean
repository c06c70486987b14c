import Questionnaire.Proofs.Yaml.Write.Nesting
import Questionnaire.Proofs.Yaml.Write.Scalar

/-!
Collections as they are written, read back as tokens. What stands behind an indicator (`NodeText`)
and the lines of a collection (`BodyText`) are put together from their parts in the way in which the
text is written (`nodeText`, `bodyText_items`, `bodyText_entries`).
-/
namespace Questionnaire.Yaml
open Yaml.Text (placed)
open Write Token

namespace Scan

/-- A text that is read as some tokens from a place on, up to the indentation of the next line. -/
def ReadsFrom (m : Mark) (text : List Char) (indents : List Nat) (allowed : Bool) (k : Nat)
    (indents' : List Nat) (kinds : List Kind) : Prop :=
  ∀ (ts : List Token) (tail : List Char), Bare tail →
    ∃ (m' : Mark) (node : List Token), m'.column = k ∧ node.map (·.kind) = kinds.reverse ∧
      Reaches (block m (text ++ (spaces k ++ tail)) ts indents allowed none)
        (block m' tail (node ++ ts) indents' true none)

/-- The text starts with a blank or a break. -/
def StartsBlank (text : List Char) : Prop := ∃ c rest, text = c :: rest ∧ isBlankOrEnd c

theorem StartsBlank.head {text : List Char} (starts : StartsBlank text) (after : List Char) :
    isBlankOrEnd ((text ++ after).headD endOfText) := by
  obtain ⟨c, rest, rfl, blank⟩ := starts
  exact blank

namespace ReadsFrom
variable {m : Mark} {text more : List Char} {indents mid last outer : List Nat} {allowed opened : Bool}
  {k j n : Nat} {kinds kinds' : List Kind}

theorem of_line (reads : ReadsLine n text kinds) (ends : EndsLine text) (right : n < m.column)
    (inside : k ≤ n) : ReadsFrom m text (n :: outer) allowed k (n :: outer) kinds := by
  intro ts tail bare
  obtain ⟨node, shape, reaches⟩ := reads m ts outer allowed k tail right inside bare
  exact ⟨_, node, ends.column m k, shape, reaches⟩

theorem blank (bare : ∀ after, Bare (text ++ after))
    (reads : ReadsFrom (m.step ' ') text indents allowed k last kinds) :
    ReadsFrom m (' ' :: text) indents allowed k last kinds := by
  intro ts tail end_
  obtain ⟨m', node, column, shape, reaches⟩ := reads ts tail end_
  exact ⟨m', node, column, shape, (Reaches.spaces (bare _) 1).trans reaches⟩

theorem feed (bare : ∀ after, Bare (text ++ after))
    (reads : ReadsFrom (m.past ('\n' :: spaces j)) text indents true k last kinds) :
    ReadsFrom m ('\n' :: (spaces j ++ text)) indents allowed k last kinds := by
  intro ts tail end_
  obtain ⟨m', node, column, shape, reaches⟩ := reads ts tail end_
  refine ⟨m', node, column, shape, ?_⟩
  rw [List.cons_append, List.append_assoc]
  exact (Reaches.line (bare _) j passing_none).trans reaches

theorem append (first : ReadsFrom m text indents allowed j mid kinds)
    (bare : ∀ after, Bare (more ++ after))
    (rest : ∀ m' : Mark, m'.column = j → ReadsFrom m' more mid true k last kinds') :
    ReadsFrom m (text ++ (spaces j ++ more)) indents allowed k last (kinds ++ kinds') := by
  intro ts tail end_
  obtain ⟨m', node, column, shape, reaches⟩ := first ts (more ++ (spaces k ++ tail)) (bare _)
  obtain ⟨m'', node', column', shape', reaches'⟩ := rest m' column (node ++ ts) tail end_
  refine ⟨m'', node' ++ node, column', ?_, ?_⟩
  · rw [List.map_append, shape, shape', List.reverse_append]
  · rw [List.append_assoc, List.append_assoc, List.append_assoc]
    exact reaches.trans reaches'

theorem close (reads : ReadsFrom m text indents allowed k (n :: outer) kinds) (left : k < n) :
    ReadsFrom m text indents allowed k outer (kinds ++ [.blockEnd]) := by
  intro ts tail bare
  obtain ⟨m', node, column, shape, reaches⟩ := reads ts tail bare
  obtain ⟨t, kind, closed⟩ := Reaches.close (node ++ ts) outer true bare (column ▸ left)
  refine ⟨m', t :: node, column, ?_, reaches.trans closed⟩
  rw [List.map_cons, shape, kind, List.reverse_concat]

/-- What an indicator adds in front of the tokens behind it. -/
theorem indicator {c : Char} {allowed' : Bool} {front : List Kind}
    (step : ∀ ts cs, isBlankOrEnd (cs.headD endOfText) → ∃ ts' : List Token,
      ts'.map (·.kind) = front.reverse ∧ Reaches (block m (c :: cs) ts indents allowed none)
        (block (m.step c) cs (ts' ++ ts) mid allowed' none))
    (starts : StartsBlank text) (reads : ReadsFrom (m.step c) text mid allowed' k last kinds) :
    ReadsFrom m (c :: text) indents allowed k last (front ++ kinds) := by
  intro ts tail bare
  obtain ⟨ts', shape', first⟩ := step ts (text ++ (spaces k ++ tail)) (starts.head _)
  obtain ⟨m', node, column, shape, reaches⟩ := reads (ts' ++ ts) tail bare
  refine ⟨m', node ++ ts', column, ?_, ?_⟩
  · rw [List.map_append, shape, shape', List.reverse_append]
  · rw [List.append_assoc]
    exact first.trans reaches

theorem dash (can : CanOpen opened m.column outer) (starts : StartsBlank text)
    (reads : ReadsFrom (m.step '-') text (m.column :: outer) true k last kinds) :
    ReadsFrom m ('-' :: text) (columns opened m.column outer) true k last
      ((if opened then [] else [.blockSequenceStart]) ++ .blockEntry :: kinds) := by
  rw [List.append_cons]
  refine indicator (fun ts cs blank => ?_) starts reads
  obtain ⟨ts', shape, reaches⟩ := Reaches.dash ts can blank
  refine ⟨ts', ?_, reaches⟩
  rw [shape]
  cases opened <;> rfl

theorem question (can : CanOpen opened m.column outer) (starts : StartsBlank text)
    (reads : ReadsFrom (m.step '?') text (m.column :: outer) true k last kinds) :
    ReadsFrom m ('?' :: text) (columns opened m.column outer) true k last
      ((if opened then [] else [.blockMappingStart]) ++ .key :: kinds) := by
  rw [List.append_cons]
  refine indicator (fun ts cs blank => ?_) starts reads
  obtain ⟨ts', shape, reaches⟩ := Reaches.question ts can blank
  refine ⟨ts', ?_, reaches⟩
  rw [shape]
  cases opened <;> rfl

theorem colon (starts : StartsBlank text)
    (reads : ReadsFrom (m.step ':') text (m.column :: outer) true k last kinds) :
    ReadsFrom m (':' :: text) (m.column :: outer) true k last (.value :: kinds) := by
  change ReadsFrom m (':' :: text) (m.column :: outer) true k last ([.value] ++ kinds)
  refine indicator (fun ts cs blank => ?_) starts reads
  obtain ⟨t, kind, reaches⟩ := Reaches.colon ts outer blank
  exact ⟨[t], by rw [List.map_singleton, kind]; rfl, reaches⟩

theorem shortKey {key : List Char} (reads : ReadsKey key kinds)
    (can : CanOpen opened m.column outer)
    (starts : StartsBlank text)
    (value : ReadsFrom ((m.past key).step ':') text (m.column :: outer) false k last kinds') :
    ReadsFrom m (key ++ ':' :: text) (columns opened m.column outer) true k last
      ((if opened then [] else [.blockMappingStart]) ++ .key :: (kinds ++ .value :: kinds')) := by
  intro ts tail bare
  have blank := starts.head (spaces k ++ tail)
  obtain ⟨near, node, shape, required, first⟩ := reads m ts _ (text ++ (spaces k ++ tail)) can.within
    blank
  obtain ⟨ts', shape', second⟩ := Reaches.shortKey node ts required can blank near
  obtain ⟨m', node', column, shape'', third⟩ := value (ts' ++ ts) tail bare
  refine ⟨m', node' ++ ts', column, ?_, ?_⟩
  · rw [List.map_append, shape'', shape', shape]
    cases opened <;> simp
  · rw [List.append_assoc, List.append_assoc]
    exact (first.trans second).trans third

end ReadsFrom

/-- The end of the text closes the last collection. -/
theorem streamEnd_block {m : Mark} (line : m.column = 0) (ts : List Token) :
    (block m [] ts [0] true none).streamEnd =
      .ok { block m [] (⟨.streamEnd, m, m⟩ :: ⟨.blockEnd, m, m⟩ :: ts) [] false none with
        ended := true } := by
  have outside : decide ((-1 : Int) < (0 : Nat)) = true := by decide
  rw [streamEnd, mark_block, if_pos line]
  simp only [closeBlocks, block, inFlow, List.length_singleton, Nat.lt_irrefl, decide_false,
    Bool.false_eq_true, if_false]
  rw [List.takeWhile_cons_of_pos (p := fun j : Nat => decide ((-1 : Int) < j)) outside]
  rfl

theorem run_end {m : Mark} (line : m.column = 0) (ts : List Token) (fuel : Nat) :
    run (fuel + 2) (block m [] ts [0] true none) =
      ((⟨.streamEnd, m, m⟩ :: ⟨.blockEnd, m, m⟩ :: ts : List Token).reverse, none) := by
  have within : Within m.column [0] := by
    intro i hi
    obtain rfl : 0 = i := by simpa using hi
    omega
  have still : Still (block m [] ts [0] true none) := still_block .nil within
  rw [run, if_neg (show ¬ (block m [] ts [0] true none).ended = true from Bool.false_ne_true),
    still.next_end rfl, streamEnd_block line]
  rfl

end Scan

namespace Write
open Scan

/-! Parts. -/

/-- A text that is read as some tokens behind an indicator of a collection at a column. Behind a
short key the collection that it may start is on a line of its own. -/
structure NodeText (n : Nat) (place : Place) (text : List Char) (kinds : List Kind) : Prop where
  starts : StartsBlank text
  printable : Printable text
  reads : ∀ (m : Mark) (outer : List Nat) (allowed : Bool) (k : Nat),
    (place ≠ .key → allowed = true ∧ m.column = n + 1) → n < m.column → k ≤ n →
    ReadsFrom m text (n :: outer) allowed k (n :: outer) kinds

/-- A text that is read as items or entries of a collection at a column, the token `start` in front
of them if this is not open yet. -/
structure BodyText (n : Nat) (start : Kind) (text : List Char) (kinds : List Kind) : Prop where
  bare : ∀ after, Bare (text ++ after)
  printable : Printable text
  reads : ∀ (m : Mark) (outer : List Nat) (opened : Bool) (k : Nat), m.column = n →
    CanOpen opened n outer → k ≤ n →
    ReadsFrom m text (columns opened n outer) true k (n :: outer)
      ((if opened then [] else [start]) ++ kinds)

variable {n : Nat} {place : Place} {text more : List Char} {kinds kinds' : List Kind} {start : Kind}

theorem startsBlank_blank (cs : List Char) : StartsBlank (' ' :: cs) := ⟨' ', cs, rfl, by decide⟩

theorem startsBlank_feed (cs : List Char) : StartsBlank ('\n' :: cs) := ⟨'\n', cs, rfl, by decide⟩

/-- What is written on one line, or as lines of its own. -/
theorem nodeText_line (bare : ∀ after, Bare (text ++ after)) (printable : Printable text)
    (ends : EndsLine text) (reads : ReadsLine n text kinds) :
    NodeText n place (' ' :: text) kinds := by
  refine ⟨startsBlank_blank text, .cons (by decide) printable, ?_⟩
  intro m outer allowed k _ right inside
  have column : (m.step ' ').column = m.column + 1 := Mark.column_step (by decide)
  exact .blank bare (.of_line reads ends (by omega) inside)

/-- A collection that starts behind the indicator. -/
theorem BodyText.behind (body : BodyText (n + 2) start text kinds) (inner : place ≠ .key) :
    NodeText n place (' ' :: text) (start :: kinds ++ [.blockEnd]) := by
  refine ⟨startsBlank_blank text, .cons (by decide) body.printable, ?_⟩
  intro m outer allowed k compact right inside
  obtain ⟨rfl, next⟩ := compact inner
  have column : (m.step ' ').column = n + 2 := by
    rw [Mark.column_step (by decide), next]
  have can : CanOpen false (n + 2) (n :: outer) := by
    intro _ i hi
    obtain rfl : n = i := by simpa using hi
    omega
  exact .blank body.bare ((body.reads _ _ false k column can (by omega)).close (by omega))

/-- A collection on the lines below a short key, indented further. -/
theorem BodyText.below (body : BodyText (n + 2) start text kinds) :
    NodeText n .key ('\n' :: (spaces (n + 2) ++ text)) (start :: kinds ++ [.blockEnd]) := by
  refine ⟨startsBlank_feed _, .cons (by decide) ((printable_spaces _).append body.printable), ?_⟩
  intro m outer allowed k _ right inside
  have column : (m.past ('\n' :: spaces (n + 2))).column = n + 2 :=
    (endsLine_feed []).column m (n + 2)
  have can : CanOpen false (n + 2) (n :: outer) := by
    intro _ i hi
    obtain rfl : n = i := by simpa using hi
    omega
  exact .feed body.bare ((body.reads _ _ false k column can (by omega)).close (by omega))

/-- A sequence on the lines below a short key, indented like the key. -/
theorem BodyText.beside (body : BodyText n start text kinds) :
    NodeText n .key ('\n' :: (spaces n ++ text)) kinds := by
  refine ⟨startsBlank_feed _, .cons (by decide) ((printable_spaces _).append body.printable), ?_⟩
  intro m outer allowed k _ right inside
  have column : (m.past ('\n' :: spaces n)).column = n := (endsLine_feed []).column m n
  exact .feed body.bare (body.reads _ outer true k column (fun h => nomatch h) inside)

/-- One item. -/
theorem NodeText.item (node : NodeText n .item text kinds) :
    BodyText n .blockSequenceStart ('-' :: text) (.blockEntry :: kinds) := by
  refine ⟨fun _ => bare_indicator (Or.inl rfl), .cons (by decide) node.printable, ?_⟩
  intro m outer opened k column can inside
  subst column
  have next : (m.step '-').column = m.column + 1 := Mark.column_step (by decide)
  exact .dash can node.starts (node.reads _ outer true k (fun _ => ⟨rfl, next⟩) (by omega) inside)

/-- One entry with a long key. -/
theorem NodeText.longEntry (key : NodeText n .mark text kinds)
    (value : NodeText n .mark more kinds') :
    BodyText n .blockMappingStart ('?' :: (text ++ (spaces n ++ ':' :: more)))
      (.key :: kinds ++ .value :: kinds') := by
  refine ⟨fun _ => bare_indicator (Or.inr (Or.inl rfl)), .cons (by decide)
    (key.printable.append ((printable_spaces n).append (.cons (by decide) value.printable))), ?_⟩
  intro m outer opened k column can inside
  subst column
  have next : (m.step '?').column = m.column + 1 := Mark.column_step (by decide)
  have starts : StartsBlank (text ++ (spaces m.column ++ ':' :: more)) := by
    obtain ⟨c, rest, h, blank⟩ := key.starts
    exact ⟨c, rest ++ (spaces m.column ++ ':' :: more), by rw [h]; rfl, blank⟩
  have first := key.reads (m.step '?') outer true m.column (fun _ => ⟨rfl, next⟩) (by omega)
    (Nat.le_refl _)
  refine .question can starts (first.append (fun _ => bare_indicator (Or.inr (Or.inr rfl))) ?_)
  intro m' same
  have next' : (m'.step ':').column = m'.column + 1 := Mark.column_step (by decide)
  rw [← same] at value ⊢
  exact .colon value.starts (value.reads _ outer true k (fun _ => ⟨rfl, next'⟩) (by omega) (by omega))

/-- One entry with a short key. -/
theorem NodeText.shortEntry {key : List Char} (reads : ReadsKey key kinds)
    (bare : ∀ after, Bare (key ++ after)) (printable : Printable key)
    (value : NodeText n .key text kinds') :
    BodyText n .blockMappingStart (key ++ ':' :: text) (.key :: kinds ++ .value :: kinds') := by
  refine ⟨fun after => ?_, printable.append (.cons (by decide) value.printable), ?_⟩
  · rw [List.append_assoc]
    exact bare _
  intro m outer opened k column can inside
  subst column
  have near : Near m (m.past key) := (reads m [] _ (text ++ []) can.within (value.starts.head [])).1
  have next : ((m.past key).step ':').column = (m.past key).column + 1 :=
    Mark.column_step (by decide)
  have right := near.column
  exact .shortKey reads can value.starts
    (value.reads _ outer false k (fun other => absurd rfl other) (by omega) inside)

/-- Items or entries, and more of them on the lines below. -/
theorem BodyText.append (first : BodyText n start text kinds)
    (rest : BodyText n start more kinds') :
    BodyText n start (text ++ (spaces n ++ more)) (kinds ++ kinds') := by
  refine ⟨fun after => ?_, first.printable.append ((printable_spaces n).append rest.printable), ?_⟩
  · rw [List.append_assoc]
    exact first.bare _
  intro m outer opened k column can inside
  have here := first.reads m outer opened n column can (Nat.le_refl n)
  have all := here.append rest.bare fun m' same =>
    rest.reads m' outer true k same (fun h => nomatch h) inside
  rwa [List.append_assoc] at all

/-! Values. -/

mutual

/-- The tokens of a value behind an indicator. -/
def nodeKinds (place : Place) : Value → List Kind
  | .seq (v :: vs) =>
    if place = .key then itemKinds (v :: vs)
    else .blockSequenceStart :: itemKinds (v :: vs) ++ [.blockEnd]
  | .map (e :: es) => .blockMappingStart :: entryKinds (e :: es) ++ [.blockEnd]
  | v => lineKinds v

/-- The tokens of items. -/
def itemKinds : List Value → List Kind
  | [] => []
  | v :: vs => .blockEntry :: nodeKinds .item v ++ itemKinds vs

/-- The tokens of entries. -/
def entryKinds : List (Value × Value) → List Kind
  | [] => []
  | (k, v) :: es =>
    .key :: nodeKinds .mark k ++
      .value :: nodeKinds (if (keyText? k).isSome then .key else .mark) v ++ entryKinds es

end

theorem toList_pad (n : Nat) : (pad n).toList = spaces n := by
  rw [pad, String.toList_ofList]
  rfl

theorem toList_node_string (s : String) :
    (node n place none (.str s)).toList = ' ' :: stringLine (n + 2) s := by
  rw [node, stringLine]
  split <;> simp [tagPart, *]

theorem toList_node_inline {v : Value} {t : String} (inline : inline? v = some t) :
    (node n place none v).toList = ' ' :: (t.toList ++ ['\n']) := by
  cases v with
  | null | bool | num => simp [node, tagPart, inline]
  | seq items =>
    cases items with
    | nil => simp [node, tagPart, inline]
    | cons v vs => cases inline
  | map entries =>
    cases entries with
    | nil => simp [node, tagPart, inline]
    | cons e es => cases inline
  | str s => cases inline
  | tagged t v => cases inline

theorem toList_items (v : Value) (vs : List Value) :
    (items n true (v :: vs)).toList =
      '-' :: ((node n .item none v).toList ++ (items n false vs).toList) := by
  simp [items]

theorem toList_items_more (v : Value) (vs : List Value) :
    (items n false (v :: vs)).toList = spaces n ++ (items n true (v :: vs)).toList := by
  simp [items, toList_pad]

theorem toList_entries_more (e : Value × Value) (es : List (Value × Value)) :
    (entries n false (e :: es)).toList = spaces n ++ (entries n true (e :: es)).toList := by
  obtain ⟨k, v⟩ := e
  simp [entries, toList_pad]

theorem toList_entries_short {k : Value} {t : String} (short : keyText? k = some t) (v : Value)
    (es : List (Value × Value)) : (entries n true ((k, v) :: es)).toList =
      t.toList ++ ':' :: (node n .key none v).toList ++ (entries n false es).toList := by
  simp [entries, short]

theorem toList_entries_long {k : Value} (long : keyText? k = none) (v : Value)
    (es : List (Value × Value)) : (entries n true ((k, v) :: es)).toList =
      '?' :: ((node n .mark none k).toList ++ (spaces n ++ ':' :: (node n .mark none v).toList)) ++
        (entries n false es).toList := by
  simp [entries, long, toList_pad]

theorem nodeKinds_inline {v : Value} {t : String} (inline : inline? v = some t) :
    nodeKinds place v = lineKinds v := by
  cases v with
  | seq items =>
    cases items with
    | nil => simp [nodeKinds]
    | cons v vs => cases inline
  | map entries =>
    cases entries with
    | nil => simp [nodeKinds]
    | cons e es => cases inline
  | _ => simp [nodeKinds]

theorem bare_inline {v : Value} {t : String} (inline : inline? v = some t) (after : List Char) :
    Bare (t.toList ++ after) := by
  rcases inline_cases inline with ⟨plain, _⟩ | ⟨o, c, start, stop, brackets, chars, _⟩
  · exact plain.bare after
  · rw [chars]
    exact brackets.bare

theorem nodeText_inline {v : Value} {t : String} (inline : inline? v = some t) :
    NodeText n place (node n place none v).toList (nodeKinds place v) := by
  rw [toList_node_inline inline, nodeKinds_inline inline]
  refine nodeText_line (fun after => ?_) ((printable_inline inline).append (by decide))
    (endsLine_feed _) (readsLine_inline inline)
  rw [List.append_assoc]
  exact bare_inline inline _

theorem nodeText_string (s : String) :
    NodeText n place (node n place none (.str s)).toList (nodeKinds place (.str s)) := by
  have kinds : nodeKinds place (.str s) = lineKinds (.str s) := by simp [nodeKinds]
  rw [toList_node_string, kinds]
  refine nodeText_line (fun after => ?_) ?_ (endsLine_string _ s) (readsLine_string n s)
  · rw [stringLine, List.append_assoc]
    exact bare_string s (n + 2) _
  · refine (printable_string (n + 2) s).append ?_
    split <;> decide

theorem nodeKinds_keyText {k : Value} {t : String} (short : keyText? k = some t)
    (untagged : ∀ t v, k ≠ .tagged t v) : nodeKinds place k = lineKinds k := by
  rcases keyText_cases short untagged with ⟨s, rfl, _⟩ | ⟨inline, _⟩
  · simp [nodeKinds]
  · exact nodeKinds_inline inline

mutual

theorem nodeText {v : Value} (untagged : v.isUntagged) (n : Nat) (place : Place) :
    NodeText n place (node n place none v).toList (nodeKinds place v) := by
  match v with
  | .null | .bool _ | .num _ | .seq [] | .map [] => exact nodeText_inline rfl
  | .str s => exact nodeText_string s
  | .seq (w :: ws) =>
    by_cases beside : place = .key
    · subst beside
      have text : (node n .key none (.seq (w :: ws))).toList =
          '\n' :: (spaces n ++ (items n true (w :: ws)).toList) := by
        simp [node, tagPart, toList_items_more]
      rw [text, nodeKinds, if_pos rfl]
      exact (bodyText_items untagged (List.cons_ne_nil w ws) n).beside
    · have text : (node n place none (.seq (w :: ws))).toList =
          ' ' :: (items (n + 2) true (w :: ws)).toList := by
        cases place with
        | key => exact absurd rfl beside
        | _ => simp [node]
      rw [text, nodeKinds, if_neg beside]
      exact (bodyText_items untagged (List.cons_ne_nil w ws) (n + 2)).behind beside
  | .map (e :: es) =>
    rw [nodeKinds]
    by_cases below : place = .key
    · subst below
      have text : (node n .key none (.map (e :: es))).toList =
          '\n' :: (spaces (n + 2) ++ (entries (n + 2) true (e :: es)).toList) := by
        simp [node, tagPart, toList_entries_more]
      rw [text]
      exact (bodyText_entries untagged (List.cons_ne_nil e es) (n + 2)).below
    · have text : (node n place none (.map (e :: es))).toList =
          ' ' :: (entries (n + 2) true (e :: es)).toList := by
        simp [node, below]
      rw [text]
      exact (bodyText_entries untagged (List.cons_ne_nil e es) (n + 2)).behind below
  | .tagged _ _ => cases untagged

theorem bodyText_items {vs : List Value} (untagged : untaggedItems vs) (nonempty : vs ≠ [])
    (n : Nat) : BodyText n .blockSequenceStart (items n true vs).toList (itemKinds vs) := by
  match vs with
  | [] => exact absurd rfl nonempty
  | v :: vs =>
    rw [untaggedItems, Bool.and_eq_true] at untagged
    have first := (nodeText untagged.1 n .item).item
    rw [toList_items, itemKinds]
    match vs with
    | [] => simpa [items, itemKinds] using first
    | w :: ws =>
      rw [toList_items_more]
      exact first.append (bodyText_items untagged.2 (List.cons_ne_nil w ws) n)

theorem bodyText_entries {es : List (Value × Value)} (untagged : untaggedEntries es)
    (nonempty : es ≠ []) (n : Nat) :
    BodyText n .blockMappingStart (entries n true es).toList (entryKinds es) := by
  match es with
  | [] => exact absurd rfl nonempty
  | (k, v) :: es =>
    rw [untaggedEntries, Bool.and_eq_true, Bool.and_eq_true] at untagged
    obtain ⟨⟨untaggedK, untaggedV⟩, rest⟩ := untagged
    have first : ∃ text, BodyText n .blockMappingStart text (.key :: nodeKinds .mark k ++
          .value :: nodeKinds (if (keyText? k).isSome then .key else .mark) v) ∧
        (entries n true ((k, v) :: es)).toList = text ++ (entries n false es).toList := by
      cases key : keyText? k with
      | none =>
        exact ⟨_, (nodeText untaggedK n .mark).longEntry (nodeText untaggedV n .mark),
          toList_entries_long key v es⟩
      | some t =>
        have plain : ∀ t v, k ≠ .tagged t v := by
          rintro t v rfl
          cases untaggedK
        obtain ⟨reads, bare⟩ := readsKey_keyText key plain
        rw [nodeKinds_keyText key plain]
        exact ⟨_, (nodeText untaggedV n .key).shortEntry reads bare (printable_keyText key plain),
          toList_entries_short key v es⟩
    obtain ⟨text, first, written⟩ := first
    rw [written, entryKinds]
    match es with
    | [] => simpa [entries, entryKinds] using first
    | e :: es =>
      rw [toList_entries_more]
      exact first.append (bodyText_entries rest (List.cons_ne_nil e es) n)

end

/-- The tokens of a mapping that has been written. -/
theorem tokens_text {es : Mapping} (untagged : untaggedEntries es) (nonempty : es ≠ []) :
    ∃ ts : List Token, Token.ofString (Mapping.text es) = (ts, none) ∧ ts.map (·.kind) =
      .streamStart :: .blockMappingStart :: entryKinds es ++ [.blockEnd, .streamEnd] := by
  have body := bodyText_entries untagged nonempty 0
  have text : (Mapping.text es).toList = (entries 0 true es).toList := by
    cases es with
    | nil => exact absurd rfl nonempty
    | cons e es => exact toList_entries_more e es
  generalize (entries 0 true es).toList = cs at body text
  have allowed : Text.forbiddenAt? cs = none := by
    have printable := body.printable
    clear body text
    induction cs with
    | nil => rfl
    | cons c cs ih =>
      rw [Text.forbiddenAt?, if_pos (isAllowed_of_isPrintable (printable c List.mem_cons_self)),
        ih fun d hd => printable d (List.mem_cons_of_mem c hd)]
      rfl
  have can : CanOpen false 0 [] := fun _ i hi => nomatch hi
  obtain ⟨m, node, column, kinds, n, steps, runs⟩ :=
    body.reads {} [] false 0 rfl can (Nat.le_refl 0) [⟨.streamStart, {}, {}⟩] [] .nil
  have whole : cs ++ (spaces 0 ++ []) = cs := by simp [spaces]
  rw [whole] at steps runs
  rw [rest_block, rest_block, Text.length_placed, Text.length_placed] at steps
  obtain ⟨fuel, enough⟩ : ∃ fuel, cs.length + 2 = n + (fuel + 2) :=
    ⟨cs.length - n, by simp at steps; omega⟩
  have run := runs (fuel + 1) _ (run_end column _ fuel)
  refine ⟨_, Eq.trans ?_ run, ?_⟩
  · rw [Token.ofString, text]
    simp only [allowed, Text.locate_printable body.printable, Text.length_placed]
    rw [enough]
    rfl
  · simp [kinds]

end Write
end Questionnaire.Yaml
