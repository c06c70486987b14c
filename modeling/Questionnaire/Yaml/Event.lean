import Questionnaire.Yaml.Token.Scan

/-!
The events of a stream: its documents, and in them the starts and ends of collections, the scalars
and the aliases, in the order of the text. One event is found at a time; what is expected next is a
goal, and the goals of the collections around it wait behind it.
-/
namespace Questionnaire.Yaml

/-- What may stand in front of a node. A tag is given as bytes. -/
structure Properties where
  anchor : Option String := none
  tag : Option (List UInt8) := none
  deriving DecidableEq, Repr

inductive Event.Kind
  | documentStart
  | documentEnd
  | streamEnd
  | alias (name : String)
  | scalar (properties : Properties) (text : String) (style : Style)
  | sequenceStart (properties : Properties)
  | sequenceEnd
  | mappingStart (properties : Properties)
  | mappingEnd
  deriving DecidableEq, Repr

structure Event where
  kind : Event.Kind
  mark : Mark
  deriving DecidableEq, Repr

/-- What is expected next. Collections know where they started. -/
inductive Goal
  | document (bare : Bool)
  | content
  | blockNode
  | documentEnd
  | sequenceEntry (start : Mark)
  | indentlessEntry
  | mappingKey (start : Mark)
  | mappingValue (start : Mark)
  | flowEntry (first : Bool) (start : Mark)
  | pairKey
  | pairValue
  | pairEnd
  | flowKey (first : Bool) (start : Mark)
  | flowValue (start : Mark)
  | flowNoValue (start : Mark)
  | nothing
  deriving DecidableEq, Repr

structure Parse where
  tokens : List Token
  /-- Why there are no more tokens. -/
  failure : Option SyntaxError
  goal : Goal := .document true
  waiting : List Goal := []
  directives : List (String × List UInt8) := []

namespace Parse

/-- The next event, or the reason why there is none. -/
abbrev Step := Except (Option SyntaxError) (Event × Parse)

def peek (p : Parse) : Except (Option SyntaxError) Token :=
  match p.tokens with
  | t :: _ => .ok t
  | [] => .error p.failure

def drop (p : Parse) : Parse := { p with tokens := p.tokens.drop 1 }

def goTo (p : Parse) (goal : Goal) : Parse := { p with goal }

/-- Leaves a goal for later. -/
def postpone (p : Parse) (goal : Goal) : Parse := { p with waiting := goal :: p.waiting }

/-- Goes back to the goal that was left last. -/
def resume (p : Parse) : Parse :=
  match p.waiting with
  | goal :: waiting => { p with goal, waiting }
  | [] => { p with goal := .nothing }

def emit (p : Parse) (kind : Event.Kind) (mark : Mark) : Step := .ok (⟨kind, mark⟩, p)

/-- A scalar that is not written. -/
def emitEmpty (p : Parse) (mark : Mark) : Step := p.emit (.scalar {} "" .plain) mark

def fail {α : Type} (problem : Problem) (mark : Mark) (reading : Option (Reading × Mark)) :
    Except (Option SyntaxError) α :=
  .error (some ⟨problem, mark, reading⟩)

/-- Handles with a meaning of their own if no directive redefines them. -/
def standardHandles : List (String × List UInt8) :=
  [("!", Token.octets "!".toList), ("!!", Token.octets "tag:yaml.org,2002:".toList)]

/-- The directives in front of a document. -/
def readDirectives : List Token → Bool → List (String × List UInt8) →
    Except SyntaxError (List (String × List UInt8) × List Token)
  | ⟨.version major minor, start, _⟩ :: ts, versioned, found =>
    if versioned then .error ⟨.duplicateVersion, start, none⟩
    else if major ≠ 1 || (minor ≠ 1 && minor ≠ 2) then .error ⟨.incompatibleVersion, start, none⟩
    else readDirectives ts true found
  | ⟨.tagDirective handle replacement, start, _⟩ :: ts, versioned, found =>
    if found.any (·.1 == handle) then .error ⟨.duplicateTagDirective, start, none⟩
    else readDirectives ts versioned (found ++ [(handle, replacement)])
  | ts, _, found => .ok (found ++ standardHandles, ts)

/-- The start of a document, or the end of the stream. Only the first document can begin without a
marker. -/
def document (p : Parse) (bare : Bool) : Step := do
  let p := if bare then p
    else { p with tokens := p.tokens.dropWhile fun t => t.kind == .documentEnd }
  let t ← p.peek
  match t.kind with
  | .streamEnd => p.drop.goTo .nothing |>.emit .streamEnd t.start
  | .documentStart | .version .. | .tagDirective .. => explicit t.start
  | _ =>
    if bare then
      let p := { p with directives := standardHandles }
      p.postpone .documentEnd |>.goTo .blockNode |>.emit .documentStart t.start
    else explicit t.start
where
  explicit (start : Mark) : Step := do
    let tokens := if bare then p.tokens else p.tokens.dropWhile fun t => t.kind == .documentEnd
    let (directives, tokens) ← (readDirectives tokens false []).mapError some
    let p := { p with directives, tokens }
    let t ← p.peek
    if t.kind ≠ .documentStart then fail .noDocumentStart t.start none
    p.drop.postpone .documentEnd |>.goTo .content |>.emit .documentStart start

/-- A tag as it is written, and its place. -/
structure WrittenTag where
  mark : Mark
  handle : String
  suffix : List UInt8

/-- What is written in front of a node, the place where the node starts, and what follows. -/
structure Front where
  anchor : Option String
  tag : Option WrittenTag
  start : Mark
  rest : Parse

/-- An anchor and a tag, in any order and each of them once at most. -/
def front (p : Parse) : Except (Option SyntaxError) Front := do
  let t ← p.peek
  match t.kind with
  | .anchor name => do
    let u ← p.drop.peek
    match u.kind with
    | .tag handle suffix => return ⟨some name, some ⟨u.start, handle, suffix⟩, t.start, p.drop.drop⟩
    | _ => return ⟨some name, none, t.start, p.drop⟩
  | .tag handle suffix => do
    let tag : WrittenTag := ⟨t.start, handle, suffix⟩
    let u ← p.drop.peek
    match u.kind with
    | .anchor name => return ⟨some name, some tag, t.start, p.drop.drop⟩
    | _ => return ⟨none, some tag, t.start, p.drop⟩
  | _ => return ⟨none, none, t.start, p⟩

/-- The full tag: a handle stands for what its directive says. -/
def fullTag (p : Parse) (start : Mark) (tag : WrittenTag) :
    Except (Option SyntaxError) (List UInt8) :=
  if tag.handle.isEmpty then .ok tag.suffix
  else match p.directives.find? (·.1 == tag.handle) with
    | some (_, replacement) => .ok (replacement ++ tag.suffix)
    | none => fail .undefinedTagHandle tag.mark (some (.node, start))

/-- A node. Block collections are possible only if `block` holds, a sequence at the indentation of
its key only if `indentless` does. A node of properties alone is an empty scalar. -/
def node (p : Parse) (block indentless : Bool) : Step := do
  let t ← p.peek
  if let .alias name := t.kind then return ← p.drop.resume.emit (.alias name) t.start
  let front ← p.front
  let start := front.start
  let p := front.rest
  let tag ← front.tag.mapM (p.fullTag start)
  let properties : Properties := { anchor := front.anchor, tag }
  let t ← p.peek
  let collection (goal : Mark → Goal) (kind : Properties → Event.Kind) : Step :=
    (p.drop.goTo (goal t.start)).emit (kind properties) start
  match t.kind with
  | .scalar text style => p.drop.resume.emit (.scalar properties text style) start
  | .flowSequenceStart => collection (.flowEntry true) .sequenceStart
  | .flowMappingStart => collection (.flowKey true) .mappingStart
  | kind =>
    if indentless && kind == .blockEntry then
      (p.goTo .indentlessEntry).emit (.sequenceStart properties) start
    else if block && kind == .blockSequenceStart then collection .sequenceEntry .sequenceStart
    else if block && kind == .blockMappingStart then collection .mappingKey .mappingStart
    else if front.anchor.isSome || tag.isSome then
      p.resume.emit (.scalar properties "" .plain) start
    else fail .noNodeContent t.start (some (if block then .blockNode else .flowNode, start))

def content (p : Parse) : Step := do
  let t ← p.peek
  match t.kind with
  | .version .. | .tagDirective .. | .documentStart | .documentEnd | .streamEnd =>
    p.resume.emitEmpty t.start
  | _ => p.node true false

def documentEnd (p : Parse) : Step := do
  let t ← p.peek
  let p := if t.kind == .documentEnd then p.drop else p
  (p.goTo (.document false)).emit .documentEnd t.start

/-- The node behind an indicator, or an empty scalar if one of these tokens follows. -/
def nodeUnless (p : Parse) (stops : List Token.Kind) (again : Goal) (mark : Mark)
    (block indentless : Bool) : Step := do
  let t ← p.peek
  if stops.contains t.kind then (p.goTo again).emitEmpty mark
  else (p.postpone again).node block indentless

def sequenceEntry (p : Parse) (start : Mark) : Step := do
  let t ← p.peek
  match t.kind with
  | .blockEntry =>
    p.drop.nodeUnless [.blockEntry, .blockEnd] (.sequenceEntry start) t.stop true false
  | .blockEnd => p.drop.resume.emit .sequenceEnd t.start
  | _ => fail .noSequenceDash t.start (some (.blockSequence, start))

def indentlessEntry (p : Parse) : Step := do
  let t ← p.peek
  match t.kind with
  | .blockEntry =>
    p.drop.nodeUnless [.blockEntry, .key, .value, .blockEnd] .indentlessEntry t.stop true false
  | _ => p.resume.emit .sequenceEnd t.start

def mappingKey (p : Parse) (start : Mark) : Step := do
  let t ← p.peek
  match t.kind with
  | .key => p.drop.nodeUnless [.key, .value, .blockEnd] (.mappingValue start) t.stop true true
  | .blockEnd => p.drop.resume.emit .mappingEnd t.start
  | _ => fail .noMappingKey t.start (some (.blockMapping, start))

def mappingValue (p : Parse) (start : Mark) : Step := do
  let t ← p.peek
  match t.kind with
  | .value => p.drop.nodeUnless [.key, .value, .blockEnd] (.mappingKey start) t.stop true true
  | _ => (p.goTo (.mappingKey start)).emitEmpty t.start

/-- Skips the comma between the entries of a flow collection. -/
def comma (p : Parse) (first : Bool) (problem : Problem) (reading : Reading) (start : Mark) :
    Except (Option SyntaxError) Parse := do
  if first then return p
  let t ← p.peek
  if t.kind == .flowEntry then return p.drop
  fail problem t.start (some (reading, start))

def flowEntry (p : Parse) (first : Bool) (start : Mark) : Step := do
  let t ← p.peek
  if t.kind == .flowSequenceEnd then p.drop.resume.emit .sequenceEnd t.start
  else
    let p ← p.comma first .noFlowSequenceEnd .flowSequence start
    let t ← p.peek
    match t.kind with
    | .key =>
      (p.drop.postpone (.flowEntry false start)).goTo .pairKey |>.emit (.mappingStart {}) t.start
    | .flowSequenceEnd => p.drop.resume.emit .sequenceEnd t.start
    | _ => (p.postpone (.flowEntry false start)).node false false

/-- The key of a mapping of one entry in a flow sequence. Where no key is written, the token behind
it is lost. -/
def pairKey (p : Parse) : Step := do
  let t ← p.peek
  match t.kind with
  | .value | .flowEntry | .flowSequenceEnd => (p.drop.goTo .pairValue).emitEmpty t.stop
  | _ => (p.postpone .pairValue).node false false

/-- A value in flow context, if a colon and something else than one of these tokens follow. -/
def flowValueUnless (p : Parse) (stops : List Token.Kind) (again : Goal) : Step := do
  let t ← p.peek
  if t.kind == .value then do
    let u ← p.drop.peek
    if stops.contains u.kind then (p.drop.goTo again).emitEmpty u.start
    else (p.drop.postpone again).node false false
  else (p.goTo again).emitEmpty t.start

def flowKey (p : Parse) (first : Bool) (start : Mark) : Step := do
  let t ← p.peek
  if t.kind == .flowMappingEnd then p.drop.resume.emit .mappingEnd t.start
  else
    let p ← p.comma first .noFlowMappingEnd .flowMapping start
    let t ← p.peek
    match t.kind with
    | .key => do
      let u ← p.drop.peek
      p.drop.nodeUnless [.value, .flowEntry, .flowMappingEnd] (.flowValue start) u.start false false
    | .flowMappingEnd => p.drop.resume.emit .mappingEnd t.start
    | _ => (p.postpone (.flowNoValue start)).node false false

def step (p : Parse) : Step :=
  match p.goal with
  | .document bare => p.document bare
  | .content => p.content
  | .blockNode => p.node true false
  | .documentEnd => p.documentEnd
  | .sequenceEntry start => p.sequenceEntry start
  | .indentlessEntry => p.indentlessEntry
  | .mappingKey start => p.mappingKey start
  | .mappingValue start => p.mappingValue start
  | .flowEntry first start => p.flowEntry first start
  | .pairKey => p.pairKey
  | .pairValue => p.flowValueUnless [.flowEntry, .flowSequenceEnd] .pairEnd
  | .pairEnd => do p.resume.emit .mappingEnd (← p.peek).start
  | .flowKey first start => p.flowKey first start
  | .flowValue start => p.flowValueUnless [.flowEntry, .flowMappingEnd] (.flowKey false start)
  | .flowNoValue start => do (p.goTo (.flowKey false start)).emitEmpty (← p.peek).start
  | .nothing => .error none

def run : Nat → Parse → List Event × Option SyntaxError
  | 0, _ => ([], none)
  | fuel + 1, p =>
    match p.step with
    | .ok (e, p) =>
      let (events, failure) := run fuel p
      (e :: events, failure)
    | .error failure => ([], failure)

end Parse

/-- The events of a text, or those before an error. Between two tokens there are at most three
events that no token stands for. -/
def Event.ofString (text : String) : List Event × Option SyntaxError :=
  let (tokens, failure) := Token.ofString text
  Parse.run (4 * tokens.length + 4) { tokens := tokens.drop 1, failure }

end Questionnaire.Yaml
