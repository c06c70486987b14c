import Questionnaire.Proofs.Yaml.Write.Tokens
import Questionnaire.Yaml.Event

/-!
The events of written text. A value behind an indicator makes the events of its kind, whatever goal
waits behind it (`emits_node`, `emits_items`, `emits_entries`), so a written mapping makes those of
one document (`events_text`).
-/
namespace Questionnaire.Yaml
open Write

/-! Values. -/

namespace Write

mutual

/-- The events of a value. -/
def nodeEvents : Value → List Event.Kind
  | .str s => [.scalar {} s (Look.ofString s).style]
  | .seq vs => .sequenceStart {} :: itemEvents vs ++ [.sequenceEnd]
  | .map es => .mappingStart {} :: entryEvents es ++ [.mappingEnd]
  | v => [.scalar {} ((inline? v).getD "") .plain]

def itemEvents : List Value → List Event.Kind
  | [] => []
  | v :: vs => nodeEvents v ++ itemEvents vs

def entryEvents : List (Value × Value) → List Event.Kind
  | [] => []
  | (k, v) :: es => nodeEvents k ++ nodeEvents v ++ entryEvents es

end

/-- The first token of a value: no indicator, except for the dash of a sequence below its key. -/
theorem nodeKinds_first (place : Place) {v : Value} (untagged : v.isUntagged) :
    ∃ k ks, nodeKinds place v = k :: ks ∧ k ∉ [.key, .value, .blockEnd] ∧
      (place ≠ .key → k ≠ .blockEntry) := by
  match v with
  | .null | .bool _ | .num _ | .str _ | .seq [] | .map [] =>
    refine ⟨_, _, nodeKinds.eq_3 place _ (by simp) (by simp), by simp, by simp⟩
  | .seq (v :: vs) =>
    by_cases compact : place = .key
    · exact ⟨_, _, by rw [nodeKinds, if_pos compact, itemKinds, List.cons_append], by decide,
        fun inner => absurd compact inner⟩
    · exact ⟨_, _, by rw [nodeKinds, if_neg compact, List.cons_append], by decide,
        fun _ => by decide⟩
  | .map (e :: es) => exact ⟨_, _, by rw [nodeKinds, List.cons_append], by decide, fun _ => by decide⟩
  | .tagged _ _ => cases untagged

end Write

namespace Parse
variable {p : Parse} {goal g : Goal} {waiting ws : List Goal} {k : Token.Kind}
  {ks : List Token.Kind}

/-- What is to come, by kinds of tokens, and the goals. -/
structure Ready (kinds : List Token.Kind) (goal : Goal) (waiting : List Goal) (p : Parse) :
    Prop where
  tokens : p.tokens.map (·.kind) = kinds
  goal : p.goal = goal
  waiting : p.waiting = waiting

theorem Ready.cons (ready : Ready (k :: ks) goal waiting p) :
    ∃ start stop ts failure directives,
      p = ⟨⟨k, start, stop⟩ :: ts, failure, goal, waiting, directives⟩ ∧ ts.map (·.kind) = ks := by
  obtain ⟨tokens, failure, goal, waiting, directives⟩ := p
  obtain ⟨shape, rfl, rfl⟩ := ready
  obtain ⟨⟨kind, start, stop⟩, ts, rfl, rfl, rest⟩ := List.map_eq_cons_iff.mp shape
  exact ⟨start, stop, ts, failure, directives, rfl, rest⟩

theorem Ready.drop (ready : Ready (k :: ks) goal waiting p) : Ready ks goal waiting p.drop := by
  obtain ⟨a, b, ts, failure, directives, rfl, rest⟩ := ready.cons
  exact ⟨rest, rfl, rfl⟩

/-- The events come one after the other, and then `Q` holds. -/
def Emits (Q : Parse → Prop) : List Event.Kind → Parse → Prop
  | [], p => Q p
  | kind :: kinds, p => ∃ e p', p.step = .ok (e, p') ∧ e.kind = kind ∧ Emits Q kinds p'

/-- The same for a step that is under way. -/
def Yields (Q : Parse → Prop) : List Event.Kind → Step → Prop
  | [], _ => False
  | kind :: kinds, s => ∃ e p', s = .ok (e, p') ∧ e.kind = kind ∧ Emits Q kinds p'

variable {Q R : Parse → Prop} {kinds kinds' : List Event.Kind} {s : Step}

theorem Emits.append (first : Emits Q kinds p) (rest : ∀ p, Q p → Emits R kinds' p) :
    Emits R (kinds ++ kinds') p := by
  induction kinds generalizing p with
  | nil => exact rest p first
  | cons kind kinds ih =>
    obtain ⟨e, p', step, shape, onward⟩ := first
    exact ⟨e, p', step, shape, ih onward⟩

theorem Yields.append (first : Yields Q kinds s) (rest : ∀ p, Q p → Emits R kinds' p) :
    Yields R (kinds ++ kinds') s := by
  cases kinds with
  | nil => cases first
  | cons kind kinds =>
    obtain ⟨e, p', step, shape, onward⟩ := first
    exact ⟨e, p', step, shape, onward.append rest⟩

theorem Yields.emits (first : Yields Q kinds s) (step : p.step = s) : Emits Q kinds p := by
  cases kinds with
  | nil => cases first
  | cons kind kinds =>
    subst step
    exact first

/-- Enough fuel for the events, and what is left of it. -/
theorem Emits.run (emits : Emits Q kinds p) : ∃ es p', es.map Event.kind = kinds ∧ Q p' ∧
    ∀ fuel, run (kinds.length + fuel) p = (es ++ (run fuel p').1, (run fuel p').2) := by
  induction kinds generalizing p with
  | nil => exact ⟨[], p, rfl, emits, fun fuel => by simp⟩
  | cons kind kinds ih =>
    obtain ⟨e, p', step, shape, onward⟩ := emits
    obtain ⟨es, p'', shape', last, runs⟩ := ih onward
    refine ⟨e :: es, p'', by rw [List.map_cons, shape, shape'], last, fun fuel => ?_⟩
    rw [List.length_cons, Nat.add_right_comm, Parse.run, step]
    simp only [runs fuel, List.cons_append]

/-! Steps. -/

section
variable {v : Value} (untagged : v.isUntagged)
include untagged

/-- A value behind an indicator is no empty scalar. -/
theorem nodeUnless_node {place : Place} {stops : List Token.Kind}
    (ready : Ready (nodeKinds place v ++ ks) goal ws p)
    (other : ∀ k ∈ stops, k ∈ [.key, .value, .blockEnd] ∨ (k = .blockEntry ∧ place ≠ .key))
    (again : Goal) (mark : Mark) (block indentless : Bool) :
    ∃ p', Ready (nodeKinds place v ++ ks) goal (again :: ws) p' ∧
      p.nodeUnless stops again mark block indentless = p'.node block indentless := by
  obtain ⟨k, more, first, indicator, dash⟩ := nodeKinds_first place untagged
  rw [first, List.cons_append] at ready ⊢
  obtain ⟨a, b, ts, failure, directives, rfl, rest⟩ := ready.cons
  refine ⟨⟨⟨k, a, b⟩ :: ts, failure, goal, again :: ws, directives⟩, ⟨ready.tokens, rfl, rfl⟩, ?_⟩
  have passed : stops.contains k = false := by
    rw [Bool.eq_false_iff]
    intro found
    rcases other k (List.contains_iff_mem.mp found) with h | ⟨h, inner⟩
    · exact indicator h
    · exact dash inner h
  simp only [nodeUnless, peek, bind, Except.bind, passed]
  rfl

theorem step_item {start : Mark}
    (ready : Ready (.blockEntry :: (nodeKinds .item v ++ ks)) (.sequenceEntry start) ws p) :
    ∃ p', Ready (nodeKinds .item v ++ ks) (.sequenceEntry start) (.sequenceEntry start :: ws) p' ∧
      p.step = p'.node true false := by
  obtain ⟨a, b, ts, failure, directives, rfl, rest⟩ := ready.cons
  exact nodeUnless_node untagged ready.drop (by decide) (.sequenceEntry start) b true false

theorem step_indentlessItem
    (ready : Ready (.blockEntry :: (nodeKinds .item v ++ ks)) .indentlessEntry ws p) :
    ∃ p', Ready (nodeKinds .item v ++ ks) .indentlessEntry (.indentlessEntry :: ws) p' ∧
      p.step = p'.node true false := by
  obtain ⟨a, b, ts, failure, directives, rfl, rest⟩ := ready.cons
  exact nodeUnless_node untagged ready.drop (by decide) .indentlessEntry b true false

theorem step_key {start : Mark}
    (ready : Ready (.key :: (nodeKinds .mark v ++ ks)) (.mappingKey start) ws p) :
    ∃ p', Ready (nodeKinds .mark v ++ ks) (.mappingKey start) (.mappingValue start :: ws) p' ∧
      p.step = p'.node true true := by
  obtain ⟨a, b, ts, failure, directives, rfl, rest⟩ := ready.cons
  exact nodeUnless_node untagged ready.drop (by decide) (.mappingValue start) b true true

theorem step_value {place : Place} {start : Mark}
    (ready : Ready (.value :: (nodeKinds place v ++ ks)) (.mappingValue start) ws p) :
    ∃ p', Ready (nodeKinds place v ++ ks) (.mappingValue start) (.mappingKey start :: ws) p' ∧
      p.step = p'.node true true := by
  obtain ⟨a, b, ts, failure, directives, rfl, rest⟩ := ready.cons
  exact nodeUnless_node untagged ready.drop (fun k hk => Or.inl hk) (.mappingKey start) b true true

end

theorem step_sequenceEnd {start : Mark}
    (ready : Ready (.blockEnd :: ks) (.sequenceEntry start) (g :: ws) p) :
    Emits (Ready ks g ws) [.sequenceEnd] p := by
  obtain ⟨a, b, ts, failure, directives, rfl, rest⟩ := ready.cons
  exact ⟨_, _, rfl, rfl, rest, rfl, rfl⟩

theorem step_indentlessEnd (ready : Ready (k :: ks) .indentlessEntry (g :: ws) p)
    (other : k ≠ .blockEntry) : Emits (Ready (k :: ks) g ws) [.sequenceEnd] p := by
  obtain ⟨a, b, ts, failure, directives, rfl, rest⟩ := ready.cons
  refine ⟨⟨.sequenceEnd, a⟩, ⟨⟨k, a, b⟩ :: ts, failure, g, ws, directives⟩, ?_, rfl,
    by simp [rest], rfl, rfl⟩
  simp only [step, indentlessEntry, peek, bind, Except.bind]
  rfl

theorem step_mappingEnd {start : Mark}
    (ready : Ready (.blockEnd :: ks) (.mappingKey start) (g :: ws) p) :
    Emits (Ready ks g ws) [.mappingEnd] p := by
  obtain ⟨a, b, ts, failure, directives, rfl, rest⟩ := ready.cons
  exact ⟨_, _, rfl, rfl, rest, rfl, rfl⟩

theorem node_scalar {text : String} {style : Style} {indentless : Bool}
    (ready : Ready (.scalar text style :: ks) goal (g :: ws) p) :
    Yields (Ready ks g ws) [.scalar {} text style] (p.node true indentless) := by
  obtain ⟨a, b, ts, failure, directives, rfl, rest⟩ := ready.cons
  exact ⟨_, _, rfl, rfl, rest, rfl, rfl⟩

theorem node_flowSequence {indentless : Bool}
    (ready : Ready (.flowSequenceStart :: .flowSequenceEnd :: ks) goal (g :: ws) p) :
    Yields (Ready ks g ws) [.sequenceStart {}, .sequenceEnd] (p.node true indentless) := by
  obtain ⟨a, b, ts, failure, directives, rfl, rest⟩ := ready.cons
  obtain ⟨⟨_, c, d⟩, ts, rfl, rfl, more⟩ := List.map_eq_cons_iff.mp rest
  exact ⟨_, _, rfl, rfl, _, _, rfl, rfl, more, rfl, rfl⟩

theorem node_flowMapping {indentless : Bool}
    (ready : Ready (.flowMappingStart :: .flowMappingEnd :: ks) goal (g :: ws) p) :
    Yields (Ready ks g ws) [.mappingStart {}, .mappingEnd] (p.node true indentless) := by
  obtain ⟨a, b, ts, failure, directives, rfl, rest⟩ := ready.cons
  obtain ⟨⟨_, c, d⟩, ts, rfl, rfl, more⟩ := List.map_eq_cons_iff.mp rest
  exact ⟨_, _, rfl, rfl, _, _, rfl, rfl, more, rfl, rfl⟩

theorem node_blockSequence {indentless : Bool}
    (ready : Ready (.blockSequenceStart :: ks) goal ws p) :
    Yields (fun p => ∃ start, Ready ks (.sequenceEntry start) ws p) [.sequenceStart {}]
      (p.node true indentless) := by
  obtain ⟨a, b, ts, failure, directives, rfl, rest⟩ := ready.cons
  cases indentless <;> exact ⟨_, _, rfl, rfl, a, rest, rfl, rfl⟩

theorem node_blockMapping {indentless : Bool}
    (ready : Ready (.blockMappingStart :: ks) goal ws p) :
    Yields (fun p => ∃ start, Ready ks (.mappingKey start) ws p) [.mappingStart {}]
      (p.node true indentless) := by
  obtain ⟨a, b, ts, failure, directives, rfl, rest⟩ := ready.cons
  cases indentless <;> exact ⟨_, _, rfl, rfl, a, rest, rfl, rfl⟩

theorem node_indentless (ready : Ready (.blockEntry :: ks) goal ws p) :
    Yields (Ready (.blockEntry :: ks) .indentlessEntry ws) [.sequenceStart {}]
      (p.node true true) := by
  obtain ⟨a, b, ts, failure, directives, rfl, rest⟩ := ready.cons
  exact ⟨_, _, rfl, rfl, ready.tokens, rfl, rfl⟩

/-! Values. -/

mutual

theorem yields_node {v : Value} {place : Place} {indentless : Bool} {p : Parse} {goal g : Goal}
    {ws : List Goal} {ks : List Token.Kind} (untagged : v.isUntagged)
    (below : place = .key → indentless = true ∧ ∃ k more, ks = k :: more ∧ k ≠ .blockEntry)
    (ready : Ready (nodeKinds place v ++ ks) goal (g :: ws) p) :
    Yields (Ready ks g ws) (nodeEvents v) (p.node true indentless) := by
  match v with
  | .null | .bool _ | .num _ =>
    rw [nodeKinds] at ready
    · exact node_scalar ready
    all_goals simp
  | .str s =>
    rw [nodeKinds] at ready
    · exact node_scalar ready
    all_goals simp
  | .seq [] =>
    rw [nodeKinds] at ready
    · exact node_flowSequence ready
    all_goals simp
  | .map [] =>
    rw [nodeKinds] at ready
    · exact node_flowMapping ready
    all_goals simp
  | .seq (v :: vs) =>
    rw [nodeEvents, List.cons_append, ← List.singleton_append]
    by_cases compact : place = .key
    · obtain ⟨rfl, k, more, rfl, other⟩ := below compact
      rw [nodeKinds, if_pos compact] at ready
      have start : Yields (Ready _ .indentlessEntry (g :: ws)) [.sequenceStart {}] _ :=
        node_indentless ready
      exact start.append fun p' ready' =>
        (emits_indentless untagged ready').append fun p'' last => step_indentlessEnd last other
    · rw [nodeKinds, if_neg compact, List.cons_append, List.cons_append, List.append_assoc] at ready
      refine (node_blockSequence ready).append fun p' next => ?_
      obtain ⟨start, ready'⟩ := next
      exact (emits_items untagged ready').append fun p'' last => step_sequenceEnd last
  | .map (e :: es) =>
    rw [nodeEvents, List.cons_append, ← List.singleton_append]
    rw [nodeKinds, List.cons_append, List.cons_append, List.append_assoc] at ready
    refine (node_blockMapping ready).append fun p' next => ?_
    obtain ⟨start, ready'⟩ := next
    exact (emits_entries untagged ready').append fun p'' last => step_mappingEnd last
  | .tagged _ _ => cases untagged

theorem emits_items {vs : List Value} {start : Mark} {p : Parse} {ws : List Goal}
    {ks : List Token.Kind} (untagged : untaggedItems vs)
    (ready : Ready (itemKinds vs ++ ks) (.sequenceEntry start) ws p) :
    Emits (Ready ks (.sequenceEntry start) ws) (itemEvents vs) p := by
  match vs with
  | [] => exact ready
  | v :: vs =>
    rw [untaggedItems, Bool.and_eq_true] at untagged
    rw [itemKinds, List.cons_append, List.cons_append, List.append_assoc] at ready
    obtain ⟨p', next, step⟩ := step_item untagged.1 ready
    exact ((yields_node untagged.1 (fun h => absurd h (by decide)) next).append fun p'' rest =>
      emits_items untagged.2 rest).emits step

theorem emits_indentless {vs : List Value} {p : Parse} {ws : List Goal} {ks : List Token.Kind}
    (untagged : untaggedItems vs)
    (ready : Ready (itemKinds vs ++ ks) .indentlessEntry ws p) :
    Emits (Ready ks .indentlessEntry ws) (itemEvents vs) p := by
  match vs with
  | [] => exact ready
  | v :: vs =>
    rw [untaggedItems, Bool.and_eq_true] at untagged
    rw [itemKinds, List.cons_append, List.cons_append, List.append_assoc] at ready
    obtain ⟨p', next, step⟩ := step_indentlessItem untagged.1 ready
    exact ((yields_node untagged.1 (fun h => absurd h (by decide)) next).append fun p'' rest =>
      emits_indentless untagged.2 rest).emits step

theorem emits_entries {es : List (Value × Value)} {start : Mark} {p : Parse} {ws : List Goal}
    {ks : List Token.Kind} (untagged : untaggedEntries es)
    (ready : Ready (entryKinds es ++ .blockEnd :: ks) (.mappingKey start) ws p) :
    Emits (Ready (.blockEnd :: ks) (.mappingKey start) ws) (entryEvents es) p := by
  match es with
  | [] => exact ready
  | (k, v) :: es =>
    rw [untaggedEntries, Bool.and_eq_true, Bool.and_eq_true] at untagged
    obtain ⟨⟨untaggedK, untaggedV⟩, untagged⟩ := untagged
    simp only [entryKinds, List.cons_append, List.append_assoc] at ready
    -- What follows the value is the next key or the end of the mapping.
    have after : ∃ k more, entryKinds es ++ .blockEnd :: ks = k :: more ∧ k ≠ .blockEntry := by
      cases es with
      | nil => exact ⟨_, _, rfl, by decide⟩
      | cons e es => exact ⟨_, _, rfl, by decide⟩
    obtain ⟨p', next, step⟩ := step_key untaggedK ready
    rw [entryEvents, List.append_assoc]
    refine ((yields_node untaggedK (fun h => absurd h (by decide)) next).append
      fun p' ready => ?_).emits step
    obtain ⟨p'', next, step⟩ := step_value untaggedV ready
    exact ((yields_node untaggedV (fun _ => ⟨rfl, after⟩) next).append fun p'' rest =>
      emits_entries untagged rest).emits step

end

/-- One document. -/
theorem emits_document {es : List (Value × Value)} {p : Parse} (untagged : untaggedEntries es)
    (ready : Ready (.blockMappingStart :: (entryKinds es ++ [.blockEnd, .streamEnd])) (.document true)
      [] p) :
    Emits (fun p => p.step = .error none)
      (.documentStart :: (nodeEvents (.map es) ++ [.documentEnd, .streamEnd])) p := by
  obtain ⟨a, b, ts, failure, directives, rfl, rest⟩ := ready.cons
  let inner : Parse := ⟨⟨.blockMappingStart, a, b⟩ :: ts, failure, .blockNode, [.documentEnd],
    standardHandles⟩
  have ready' : Ready _ .blockNode [.documentEnd] inner := ⟨ready.tokens, rfl, rfl⟩
  have node : Yields (Ready [.streamEnd] .documentEnd []) (nodeEvents (.map es))
      (inner.node true false) := by
    rw [nodeEvents, List.cons_append, ← List.singleton_append]
    refine (node_blockMapping ready').append fun p next => ?_
    obtain ⟨start, next⟩ := next
    exact (emits_entries untagged next).append fun p last => step_mappingEnd last
  refine ⟨_, inner, rfl, rfl, (node.append fun p last => ?_).emits rfl⟩
  obtain ⟨c, d, ts, failure, directives, rfl, empty⟩ := last.cons
  exact ⟨_, _, rfl, rfl, _, _, rfl, rfl, rfl⟩

end Parse

/-! Texts. -/

namespace Write

mutual

/-- There are at most three events for each token, those of sequences below a key included. -/
theorem length_nodeEvents (place : Place) (v : Value) :
    (nodeEvents v).length ≤ 3 * (nodeKinds place v).length := by
  match v with
  | .null | .bool _ | .num _ | .str _ | .seq [] | .map [] | .tagged _ _ =>
    rw [nodeKinds.eq_3 place _ (by simp) (by simp)]
    simp [nodeEvents, itemEvents, entryEvents, lineKinds]
  | .seq (v :: vs) =>
    have items := length_itemEvents (v :: vs)
    rw [nodeEvents, nodeKinds]
    split
    · simp only [List.length_append, List.length_cons, List.length_nil] at items ⊢
      omega
    · simp only [List.length_append, List.length_cons, List.length_nil] at items ⊢
      omega
  | .map (e :: es) =>
    have entries := length_entryEvents (e :: es)
    rw [nodeEvents, nodeKinds]
    simp only [List.length_append, List.length_cons, List.length_nil]
    omega

theorem length_itemEvents (vs : List Value) :
    (itemEvents vs).length + 3 * vs.length ≤ 3 * (itemKinds vs).length := by
  match vs with
  | [] => simp [itemEvents]
  | v :: vs =>
    have first := length_nodeEvents .item v
    have rest := length_itemEvents vs
    rw [itemEvents, itemKinds]
    simp only [List.length_append, List.length_cons]
    omega

theorem length_entryEvents (es : List (Value × Value)) :
    (entryEvents es).length ≤ 3 * (entryKinds es).length := by
  match es with
  | [] => simp [entryEvents]
  | (k, v) :: es =>
    have key := length_nodeEvents .mark k
    have value := length_nodeEvents (if (keyText? k).isSome then .key else .mark) v
    have rest := length_entryEvents es
    rw [entryEvents, entryKinds]
    simp only [List.length_append, List.length_cons]
    omega

end

/-- The events of a mapping that has been written. -/
theorem events_text {es : Mapping} (untagged : untaggedEntries es) (nonempty : es ≠ []) :
    ∃ events : List Event, Event.ofString (Mapping.text es) = (events, none) ∧
      events.map (·.kind) =
        .documentStart :: (nodeEvents (.map es) ++ [.documentEnd, .streamEnd]) := by
  obtain ⟨ts, tokens, kinds⟩ := tokens_text untagged nonempty
  have size := congrArg List.length kinds
  have few := length_entryEvents es
  rw [Event.ofString, tokens]
  obtain ⟨t, ts, rfl, first, rest⟩ := List.map_eq_cons_iff.mp kinds
  have ready : Parse.Ready (.blockMappingStart :: (entryKinds es ++ [.blockEnd, .streamEnd]))
      (.document true) [] ({ tokens := ts, failure := none } : Parse) := by
    exact ⟨rest, rfl, rfl⟩
  obtain ⟨events, p, shape, last, runs⟩ := (Parse.emits_document untagged ready).run
  have stop (fuel : Nat) : Parse.run fuel p = ([], none) := by
    cases fuel with
    | zero => rfl
    | succ fuel => rw [Parse.run, last]
  simp only [stop, List.append_nil] at runs
  refine ⟨events, ?_, shape⟩
  simp only [nodeEvents, List.length_append, List.length_cons, List.length_nil, List.length_map]
    at size runs
  obtain ⟨fuel, enough⟩ : ∃ fuel, 4 * (t :: ts).length + 4 = (entryEvents es).length + 5 + fuel := by
    refine ⟨4 * (t :: ts).length - 1 - (entryEvents es).length, ?_⟩
    rw [List.length_cons]
    omega
  simp only [enough]
  exact runs fuel

end Write
end Questionnaire.Yaml
