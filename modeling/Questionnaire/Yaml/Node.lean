import Questionnaire.Yaml.Event

/-!
The first document of a stream as a tree. Where the events end too early the tree is cut: a cut is
the last child of every collection that was open. Aliases stay in the tree, as numbers of anchors.
-/
namespace Questionnaire.Yaml

inductive Node
  | scalar (tag : Option (List UInt8)) (text : String) (style : Style) (mark : Mark)
  | alias (anchor : Nat)
  | seq (tag : Option (List UInt8)) (mark : Mark) (items : List Node)
  | map (tag : Option (List UInt8)) (mark : Mark) (entries : List (Node × Node))
  | cut

/-- An anchored node: the number of its anchor and the position of its first event. -/
structure Target where
  anchor : Nat
  position : Nat
  node : Node

structure Document where
  root : Node
  targets : List Target
  /-- The number of events. -/
  size : Nat
  /-- Why the tree is cut. -/
  failure : Option SyntaxError
  /-- Does anything follow the document? -/
  more : Bool

namespace Document

/-- A collection that is not closed yet, its children newest first. -/
structure Frame where
  isMap : Bool
  properties : Properties
  mark : Mark
  anchor : Option (Nat × Nat)
  children : List Node

/-- Children in turn keys and values. -/
def pairs : List Node → List (Node × Node)
  | k :: v :: more => (k, v) :: pairs more
  | [k] => [(k, .cut)]
  | [] => []

structure Loading where
  frames : List Frame := []
  root : Option Node := none
  targets : List Target := []
  /-- Names with the number of their anchor. A name that comes again keeps its place in the count,
  so a later anchor may get the number of an earlier one. -/
  names : List (String × Nat) := []
  size : Nat := 0

namespace Loading

def addNode (l : Loading) (node : Node) : Loading :=
  match l.frames with
  | f :: frames => { l with frames := { f with children := node :: f.children } :: frames }
  | [] => { l with root := some node }

/-- Counts an event, and gives a number to the anchor that it brings. -/
def count (l : Loading) (name : Option String) : Option (Nat × Nat) × Loading :=
  match name with
  | none => (none, { l with size := l.size + 1 })
  | some name =>
    let number := l.names.length
    let names :=
      if l.names.any (·.1 == name) then
        l.names.map fun n => if n.1 == name then (name, number) else n
      else l.names ++ [(name, number)]
    (some (number, l.size), { l with names, size := l.size + 1 })

def addTarget (l : Loading) (anchor : Option (Nat × Nat)) (node : Node) : Loading :=
  match anchor with
  | some (number, position) => { l with targets := ⟨number, position, node⟩ :: l.targets }
  | none => l

def openFrame (l : Loading) (isMap : Bool) (properties : Properties) (mark : Mark) : Loading :=
  let (anchor, l) := l.count properties.anchor
  { l with frames := ⟨isMap, properties, mark, anchor, []⟩ :: l.frames }

/-- Closes the innermost collection. -/
def close (l : Loading) : Loading :=
  match l.frames with
  | [] => l
  | f :: frames =>
    let children := f.children.reverse
    let node := if f.isMap then .map f.properties.tag f.mark (pairs children)
      else .seq f.properties.tag f.mark children
    ({ l with frames }.addTarget f.anchor node).addNode node

/-- The document as far as it has been read. -/
def cutOff (l : Loading) (failure : Option SyntaxError) : Document :=
  let l := l.frames.foldl (fun l _ => (l.addNode .cut).close) l
  ⟨l.root.getD .cut, l.targets, l.size, failure, false⟩

/-- Reads events up to the end of the document. A stream without documents holds an empty scalar. -/
def events (failure : Option SyntaxError) : Loading → List Event → Document
  | l, [] => l.cutOff failure
  | l, e :: es =>
    match e.kind with
    | .documentStart => events failure l es
    | .documentEnd =>
      ⟨l.root.getD .cut, l.targets, l.size, none, es.head?.map (·.kind) ≠ some .streamEnd⟩
    | .streamEnd => ⟨.scalar none "" .plain e.mark, [], 1, none, false⟩
    | .alias name =>
      match l.names.find? (·.1 == name) with
      | some (_, number) => events failure ((l.count none).2.addNode (.alias number)) es
      | none => l.cutOff (some ⟨.unknownAnchor, e.mark, none⟩)
    | .scalar properties text style =>
      let node := .scalar properties.tag text style e.mark
      let (anchor, l) := l.count properties.anchor
      events failure ((l.addTarget anchor node).addNode node) es
    | .sequenceStart properties => events failure (l.openFrame false properties e.mark) es
    | .mappingStart properties => events failure (l.openFrame true properties e.mark) es
    | .sequenceEnd | .mappingEnd => events failure (l.count none).2.close es

end Loading

/-- The first document of a text. -/
def ofString (text : String) : Document :=
  let (events, failure) := Event.ofString text
  Loading.events failure {} events

/-- What an alias stands for: the node that got the anchor's number last. -/
def target? (d : Document) (anchor : Nat) : Option Node :=
  (d.targets.foldl (fun best t =>
    if t.anchor ≠ anchor then best
    else match best with
      | some b => if b.position < t.position then some t else best
      | none => some t) none).map (·.node)

end Document
end Questionnaire.Yaml
