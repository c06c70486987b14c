import Questionnaire.Yaml.Value

/-!
Values that cannot be written. A tag is held back until it is known what it belongs to, and so is
the start of a mapping of one entry, which might turn out to be a tag. Two tags on one value are
refused; where a held back start is given up for another one, the nesting of what is written breaks.
-/
namespace Questionnaire.Yaml.Write

inductive WriteError
  | nestedTags
  | noNode
  | noDocument
  deriving DecidableEq, Repr

def WriteError.message : WriteError → String
  | .nestedTags => "serializing nested enums in YAML is not supported yet"
  | .noNode => "expected SCALAR, SEQUENCE-START, MAPPING-START, or ALIAS"
  | .noDocument => "expected DOCUMENT-START or STREAM-END"

/-- What is written of a value, without its contents. -/
inductive Step
  | leaf
  | seqStart
  | seqEnd
  | mapStart
  | mapEnd
  | secondTag
  deriving DecidableEq, Repr

/-- What is held back when a value begins: nothing, the start of a mapping of one entry, or a tag.
`within` is the state at the key of a mapping whose start has been written together with a tag. -/
inductive Held
  | nothing
  | start
  | tag
  | within
  deriving DecidableEq, Repr

/-- The start that is held back. -/
def Held.release : Held → List Step
  | .start => [.mapStart]
  | _ => []

mutual

/-- The steps of a value. -/
def steps (held : Held) : Value → List Step
  | .seq items => held.release ++ .seqStart :: itemSteps items ++ [.seqEnd]
  | .map [(k, v)] =>
    if held = .tag then .mapStart :: steps .within k ++ steps .nothing v ++ [.mapEnd]
    else steps .start k ++ steps .nothing v ++ [.mapEnd]
  | .map entries => held.release ++ .mapStart :: entrySteps entries ++ [.mapEnd]
  | .tagged _ v => if held = .tag then [.mapStart, .secondTag] else steps .tag v
  | _ => held.release ++ [.leaf]

def itemSteps : List Value → List Step
  | [] => []
  | v :: vs => steps .nothing v ++ itemSteps vs

def entrySteps : List (Value × Value) → List Step
  | [] => []
  | (k, v) :: es => steps .nothing k ++ steps .nothing v ++ entrySteps es

end

/-- An open collection, and whether a mapping waits for a value. -/
inductive Open
  | seq
  | key
  | value
  deriving DecidableEq, Repr

/-- A node has been completed inside of the innermost collection. -/
def Open.fill : List Open → List Open
  | .key :: os => .value :: os
  | .value :: os => .key :: os
  | os => os

/-- The first step that does not fit what is open, if there is one. -/
def misfit : List Open → List Step → Option WriteError
  | _, [] => none
  | _, .secondTag :: _ => some .nestedTags
  | os, .leaf :: ss => misfit (Open.fill os) ss
  | os, .seqStart :: ss => misfit (.seq :: os) ss
  | os, .mapStart :: ss => misfit (.key :: os) ss
  | .seq :: os, .seqEnd :: ss => misfit (Open.fill os) ss
  | .key :: os, .mapEnd :: ss => misfit (Open.fill os) ss
  | [], _ :: _ => some .noDocument
  | _, _ :: _ => some .noNode

/-- Why a value cannot be written. -/
def fault? (v : Value) : Option WriteError := misfit [] (steps .nothing v)

end Questionnaire.Yaml.Write
