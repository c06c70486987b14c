import Mathlib.Data.List.Forall2
import Questionnaire.Proofs.Except
import Questionnaire.Proofs.Yaml.Equality
import Questionnaire.Proofs.Yaml.Write.Events
import Questionnaire.Yaml.Read

/-!
Written mappings are read as themselves (`ofString_text`). The events of a value make a node that
holds this value, whatever else has been loaded (`loads_node`), and reading such a node gives the
value (`Node.Holds`).
-/
namespace Questionnaire.Yaml
open Write

/-- Reading the node gives the value, within the levels that this has. -/
def Node.Holds (node : Node) (v : Value) : Prop :=
  ∀ (d : Document) (depth : Nat) (path : Path) (jumps : Nat), v.Readable depth →
    (d.value depth false path node).run jumps = .ok (v, jumps)

theorem Reader.run_bind {α β : Type} {m : Reader α} {n k : Nat} {a : α} (h : m.run n = .ok (a, k))
    (f : α → Reader β) : (m >>= f).run n = (f a).run k := by
  rw [StateT.run_bind, h]
  rfl

theorem holds_scalar {text : String} {style : Style} {mark : Mark} {v : Value}
    (resolved : ∀ {depth}, v.Readable depth → resolveScalar none text style = .ok v) :
    Node.Holds (.scalar none text style mark) v := by
  intro d depth path jumps readable
  rw [Document.value]
  simp only [Document.follow, pure_bind, localTag?, Bool.false_eq_true, if_false,
    Option.isSome_none, Bool.or_self, resolved readable]
  rfl

theorem holds_seq {nodes : List Node} {vs : List Value} {mark : Mark}
    (each : List.Forall₂ Node.Holds nodes vs) : Node.Holds (.seq none mark nodes) (.seq vs) := by
  intro d depth path jumps readable
  cases readable with
  | @seq depth _ items =>
    have reads (k : Nat) : ((nodes.zipIdx k).mapM fun item : Node × Nat =>
        d.value depth false (path.index item.2) item.1).run jumps = .ok (vs, jumps) := by
      induction each generalizing k with
      | nil => rfl
      | @cons node v nodes vs first _ ih =>
        have head := first d depth (path.index k) jumps (items v List.mem_cons_self)
        have tail := ih (fun x hx => items x (List.mem_cons_of_mem v hx)) (k + 1)
        rw [List.zipIdx_cons, List.mapM_cons, Reader.run_bind head, Reader.run_bind tail]
        rfl
    rw [Document.value]
    simp only [Document.follow, pure_bind, localTag?, Bool.false_eq_true, if_false]
    rw [Reader.run_bind (reads 0)]
    rfl

/-- One more entry of a mapping. -/
def Document.readEntry (d : Document) (depth : Nat) (path : Path) (mark : Mark) (read : Mapping)
    (entry : Node × Node) : Reader Mapping := do
  let key ← d.value depth false path entry.1
  if Mapping.contains key read then
    throw (.badValue (.duplicateKey key) path mark)
  return read ++ [(key, ← d.value depth false (fieldPath path entry.1) entry.2)]

theorem run_readEntry {d : Document} {depth : Nat} {path : Path} {mark : Mark} {read : Mapping}
    {node : Node × Node} {e : Value × Value} (holds : node.1.Holds e.1 ∧ node.2.Holds e.2)
    (key : e.1.Readable depth) (value : e.2.Readable depth)
    (fresh : Mapping.contains e.1 read = false) (jumps : Nat) :
    (d.readEntry depth path mark read node).run jumps = .ok (read ++ [e], jumps) := by
  rw [Document.readEntry, Reader.run_bind (holds.1 d depth path jumps key), if_neg (by simp [fresh]),
    Reader.run_bind (holds.2 d depth (Document.fieldPath path node.1) jumps value)]
  rfl

theorem holds_map {nodes : List (Node × Node)} {es : Mapping} {mark : Mark}
    (each : List.Forall₂ (fun n e => n.1.Holds e.1 ∧ n.2.Holds e.2) nodes es) :
    Node.Holds (.map none mark nodes) (.map es) := by
  intro d depth path jumps readable
  cases readable with
  | @map depth _ distinct keys values =>
    have reads (read : Mapping) (apart : Mapping.Distinct (read ++ es)) :
        (nodes.foldlM (d.readEntry depth path mark) read).run jumps = .ok (read ++ es, jumps) := by
      clear distinct
      induction each generalizing read with
      | nil =>
        rw [List.append_nil]
        rfl
      | @cons node e nodes es first _ ih =>
        have fresh : Mapping.contains e.1 read = false := by
          refine List.any_eq_false.mpr fun x hx => ?_
          have other := (List.pairwise_append.mp apart).2.2 x hx e List.mem_cons_self
          simp [other]
        have here : (d.readEntry depth path mark read node).run jumps =
            .ok (read ++ [e], jumps) := run_readEntry first
          (keys e List.mem_cons_self) (values e List.mem_cons_self) fresh jumps
        have tail := ih (fun x hx => keys x (List.mem_cons_of_mem e hx))
          (fun x hx => values x (List.mem_cons_of_mem e hx)) (read ++ [e]) (by simpa using apart)
        rw [List.append_assoc, List.singleton_append] at tail
        rw [List.foldlM_cons, Reader.run_bind here, tail]
    rw [Document.value]
    simp only [Document.follow, pure_bind, localTag?, Bool.false_eq_true, if_false,
      Option.isSome_none, Bool.or_self]
    exact (Reader.run_bind (reads [] distinct) _).trans rfl

/-! Loading. -/

namespace Document

theorem addNode_size (l : Loading) (size : Nat) (node : Node) :
    ({ l with size } : Loading).addNode node = { l.addNode node with size } := by
  obtain ⟨frames, root, targets, names, _⟩ := l
  cases frames <;> rfl

/-- The events are those of a node, whatever is open around it. -/
def Loads (es : List Event) (node : Node) : Prop :=
  ∀ (l : Loading) (rest : List Event), ∃ size,
    Loading.events none l (es ++ rest) = Loading.events none { l.addNode node with size } rest

/-- The events are those of children of a collection. -/
def LoadsAll (es : List Event) (nodes : List Node) : Prop :=
  ∀ (l : Loading) (f : Frame) (frames : List Frame) (rest : List Event), ∃ size,
    Loading.events none { l with frames := f :: frames } (es ++ rest) =
      Loading.events none { l with
        frames := { f with children := nodes.reverse ++ f.children } :: frames, size } rest

theorem LoadsAll.nil : LoadsAll [] [] := fun l _ _ _ => ⟨l.size, rfl⟩

theorem Loads.append {es es' : List Event} {node : Node} {nodes : List Node} (first : Loads es node)
    (rest : LoadsAll es' nodes) : LoadsAll (es ++ es') (node :: nodes) := by
  intro l f frames more
  obtain ⟨size, head⟩ := first { l with frames := f :: frames } (es' ++ more)
  obtain ⟨size', tail⟩ :=
    rest { l with size := size } { f with children := node :: f.children } frames more
  refine ⟨size', ?_⟩
  rw [List.append_assoc, head, List.reverse_cons, List.append_assoc]
  exact tail

theorem loads_scalar {text : String} {style : Style} (mark : Mark) :
    Loads [⟨.scalar {} text style, mark⟩] (.scalar none text style mark) :=
  fun l rest => ⟨l.size + 1, congrArg (Loading.events none · rest) (addNode_size l _ _)⟩

theorem LoadsAll.seq {es : List Event} {nodes : List Node} (all : LoadsAll es nodes)
    (mark stop : Mark) :
    Loads (⟨.sequenceStart {}, mark⟩ :: (es ++ [⟨.sequenceEnd, stop⟩])) (.seq none mark nodes) := by
  intro l rest
  obtain ⟨size, children⟩ := all { l with size := l.size + 1 } ⟨false, {}, mark, none, []⟩ l.frames
    (⟨.sequenceEnd, stop⟩ :: rest)
  refine ⟨size + 1, ?_⟩
  rw [List.cons_append, List.append_assoc]
  refine Eq.trans children ?_
  rw [← addNode_size]
  simp only [List.append_nil, Loading.events, Loading.count, Loading.close, List.reverse_reverse,
    Bool.false_eq_true, if_false]
  rfl

/-- Keys and values in turn. -/
def flat (entries : List (Node × Node)) : List Node := entries.flatMap fun e => [e.1, e.2]

theorem pairs_flat (entries : List (Node × Node)) : pairs (flat entries) = entries := by
  induction entries with
  | nil => rfl
  | cons e entries ih =>
    show (e.1, e.2) :: pairs (flat entries) = e :: entries
    rw [ih]

theorem LoadsAll.map {es : List Event} {nodes : List (Node × Node)} (all : LoadsAll es (flat nodes))
    (mark stop : Mark) :
    Loads (⟨.mappingStart {}, mark⟩ :: (es ++ [⟨.mappingEnd, stop⟩])) (.map none mark nodes) := by
  intro l rest
  obtain ⟨size, children⟩ := all { l with size := l.size + 1 } ⟨true, {}, mark, none, []⟩ l.frames
    (⟨.mappingEnd, stop⟩ :: rest)
  refine ⟨size + 1, ?_⟩
  rw [List.cons_append, List.append_assoc]
  refine Eq.trans children ?_
  rw [← addNode_size]
  simp only [List.append_nil, Loading.events, Loading.count, Loading.close, List.reverse_reverse,
    if_true, pairs_flat]
  rfl

end Document

open Document

/-- The events of a collection, its first and its last one. -/
theorem exists_bracketed {es : List Event} {first last : Event.Kind} {kinds : List Event.Kind}
    (h : es.map (·.kind) = first :: kinds ++ [last]) :
    ∃ mark stop inner, es = ⟨first, mark⟩ :: (inner ++ [⟨last, stop⟩]) ∧
      inner.map (·.kind) = kinds := by
  rw [List.cons_append] at h
  obtain ⟨⟨_, mark⟩, es, rfl, rfl, rest⟩ := List.map_eq_cons_iff.mp h
  obtain ⟨inner, ends, rfl, kinds, final⟩ := List.map_eq_append_iff.mp rest
  obtain ⟨⟨_, stop⟩, none, rfl, rfl, empty⟩ := List.map_eq_cons_iff.mp final
  obtain rfl := List.map_eq_nil_iff.mp empty
  exact ⟨mark, stop, inner, rfl, kinds⟩

theorem loads_line {v : Value} {es : List Event} {text : String} {style : Style}
    (kinds : es.map (·.kind) = [.scalar {} text style])
    (resolved : ∀ {depth}, v.Readable depth → resolveScalar none text style = .ok v) :
    ∃ node, node.Holds v ∧ Loads es node := by
  obtain ⟨⟨_, mark⟩, none, rfl, rfl, empty⟩ := List.map_eq_cons_iff.mp kinds
  obtain rfl := List.map_eq_nil_iff.mp empty
  exact ⟨_, holds_scalar resolved, loads_scalar mark⟩

/-- A string is read as a string. -/
theorem resolveScalar_string (s : String) :
    resolveScalar none s (Look.ofString s).style = .ok (.str s) := by
  cases look : Look.ofString s with
  | plain =>
    have other : looksLikeOther s = false := by
      rw [Look.ofString] at look
      split at look
      · split at look <;> cases look
      · split at look
        · rename_i allowed
          rw [Bool.and_eq_true, Bool.not_eq_true'] at allowed
          exact allowed.1
        · split at look <;> cases look
    simp only [resolveScalar, Look.style, resolvePlain_string other]
  | _ => rfl

mutual

theorem loads_node {v : Value} {es : List Event} (untagged : v.isUntagged)
    (kinds : es.map (·.kind) = nodeEvents v) : ∃ node, node.Holds v ∧ Loads es node := by
  match v with
  | .null => exact loads_line kinds fun _ => rfl
  | .bool b =>
    refine loads_line kinds fun _ => ?_
    cases b <;> rfl
  | .num n =>
    refine loads_line kinds fun readable => ?_
    cases readable with
    | num range =>
      show resolveScalar none n.text .plain = _
      simp only [resolveScalar, resolvePlain_number range]
  | .str s => exact loads_line kinds fun _ => resolveScalar_string s
  | .seq vs =>
    rw [nodeEvents] at kinds
    obtain ⟨mark, stop, inner, rfl, within⟩ := exists_bracketed kinds
    obtain ⟨nodes, hold, load⟩ := loads_items untagged within
    exact ⟨_, holds_seq hold, load.seq mark stop⟩
  | .map entries =>
    rw [nodeEvents] at kinds
    obtain ⟨mark, stop, inner, rfl, within⟩ := exists_bracketed kinds
    obtain ⟨nodes, hold, load⟩ := loads_entries untagged within
    exact ⟨_, holds_map hold, load.map mark stop⟩
  | .tagged _ _ => cases untagged

theorem loads_items {vs : List Value} {es : List Event} (untagged : untaggedItems vs)
    (kinds : es.map (·.kind) = itemEvents vs) :
    ∃ nodes, List.Forall₂ Node.Holds nodes vs ∧ LoadsAll es nodes := by
  match vs with
  | [] =>
    obtain rfl : es = [] := List.map_eq_nil_iff.mp kinds
    exact ⟨[], .nil, .nil⟩
  | v :: vs =>
    rw [untaggedItems, Bool.and_eq_true] at untagged
    obtain ⟨es, es', rfl, first, rest⟩ := List.map_eq_append_iff.mp kinds
    obtain ⟨node, holds, loads⟩ := loads_node untagged.1 first
    obtain ⟨nodes, hold, load⟩ := loads_items untagged.2 rest
    exact ⟨node :: nodes, .cons holds hold, loads.append load⟩

theorem loads_entries {entries : List (Value × Value)} {es : List Event}
    (untagged : untaggedEntries entries) (kinds : es.map (·.kind) = entryEvents entries) :
    ∃ nodes : List (Node × Node),
      List.Forall₂ (fun n e => n.1.Holds e.1 ∧ n.2.Holds e.2) nodes entries ∧
        LoadsAll es (flat nodes) := by
  match entries with
  | [] =>
    obtain rfl : es = [] := List.map_eq_nil_iff.mp kinds
    exact ⟨[], .nil, .nil⟩
  | (k, v) :: entries =>
    rw [untaggedEntries, Bool.and_eq_true, Bool.and_eq_true] at untagged
    obtain ⟨⟨untaggedK, untaggedV⟩, untagged⟩ := untagged
    rw [entryEvents, List.append_assoc] at kinds
    obtain ⟨es, es', rfl, first, kinds⟩ := List.map_eq_append_iff.mp kinds
    obtain ⟨es', es'', rfl, second, rest⟩ := List.map_eq_append_iff.mp kinds
    obtain ⟨key, holdsK, loadsK⟩ := loads_node untaggedK first
    obtain ⟨value, holdsV, loadsV⟩ := loads_node untaggedV second
    obtain ⟨nodes, hold, load⟩ := loads_entries untagged rest
    exact ⟨(key, value) :: nodes, .cons ⟨holdsK, holdsV⟩ hold, loadsK.append (loadsV.append load)⟩

end

/-- A mapping without tags that can be read at all is what its text is read as. -/
theorem ofString_text {es : Mapping} (untagged : (Value.map es).isUntagged)
    (readable : (Value.map es).Readable maxDepth) :
    Value.ofString (Mapping.text es) = .ok (.map es) := by
  by_cases nonempty : es = []
  · subst nonempty
    exact eq_ok_of_toOption (by decide +kernel)
  obtain ⟨events, read, kinds⟩ := events_text untagged nonempty
  obtain ⟨⟨_, mark⟩, events, rfl, rfl, inner⟩ := List.map_eq_cons_iff.mp kinds
  obtain ⟨inside, outside, rfl, body, final⟩ := List.map_eq_append_iff.mp inner
  obtain ⟨⟨_, mark'⟩, ends, rfl, rfl, last⟩ := List.map_eq_cons_iff.mp final
  obtain ⟨⟨_, mark''⟩, none, rfl, rfl, empty⟩ := List.map_eq_cons_iff.mp last
  obtain rfl := List.map_eq_nil_iff.mp empty
  obtain ⟨root, holds, loads⟩ := loads_node (v := .map es) untagged body
  obtain ⟨size, loaded⟩ := loads {} [⟨.documentEnd, mark'⟩, ⟨.streamEnd, mark''⟩]
  have document : Document.ofString (Mapping.text es) = ⟨root, [], size, none, false⟩ := by
    rw [Document.ofString, read]
    exact loaded
  rw [Value.ofString, document]
  simp only [holds _ _ _ _ readable]
  rfl

end Questionnaire.Yaml
