import Questionnaire.Yaml.Value

/-!
Merge keys: the entries of the mappings under `<<` become entries of the mapping that holds it, own
entries winning over merged ones and earlier sources over later ones. Each mapping is expanded once:
a `<<` that is itself merged in stays, and so do those in keys.
-/
namespace Questionnaire.Yaml

inductive MergeError
  | tagged
  | scalar
  | scalarItem
  | sequenceItem
  deriving DecidableEq, Repr

def MergeError.message : MergeError → String
  | .tagged => "unexpected tagged value in merge"
  | .scalar => "expected a mapping or list of mappings for merging, but found scalar"
  | .scalarItem => "expected a mapping for merging, but found scalar"
  | .sequenceItem => "expected a mapping for merging, but found sequence"

namespace Merge

def isMergeKey (key : Value) : Bool := key.same (.str "<<")

/-- An expanded value, or the error that its expansion ends with. -/
abbrev Expanded := Except MergeError Value

/-- The expanded values of entries, and of those errors the last one. -/
def collect : List (Value × Expanded) → Except MergeError Mapping
  | [] => .ok []
  | (k, v) :: es => do
    let rest ← collect es
    return (k, ← v) :: rest

def collectItems : List Expanded → Except MergeError (List Value)
  | [] => .ok []
  | v :: vs => do
    let rest ← collectItems vs
    return (← v) :: rest

end Merge

open Merge in
mutual

/-- Expands the merge keys of a value. Of several errors inside of a mapping or list the last one in
its order is reported, but one of the mapping's own merge key goes before them. -/
def Value.expand : Value → Expanded
  | .seq items => return .seq (← collectItems (expandItems items))
  | .map entries => do
    let own := expandOwn entries
    match mergeSources? entries with
    | none => return .map (← collect own)
    | some sources =>
      let merged := (← sources).foldl Mapping.addAbsent (Mapping.swapErase (.str "<<") own)
      return .map (← collect merged)
  | .tagged tag v => return .tagged tag (← v.expand)
  | v => return v

def expandItems : List Value → List Expanded
  | [] => []
  | v :: vs => v.expand :: expandItems vs

def expandEntries : List (Value × Value) → List (Value × Expanded)
  | [] => []
  | (k, v) :: es => (k, v.expand) :: expandEntries es

/-- The entries of a mapping, with nothing at its merge key. -/
def expandOwn : List (Value × Value) → List (Value × Expanded)
  | [] => []
  | (k, v) :: es => (k, if isMergeKey k then .ok .null else v.expand) :: expandOwn es

/-- The sources under the merge key, if there is one. -/
def mergeSources? :
    List (Value × Value) → Option (Except MergeError (List (List (Value × Expanded))))
  | [] => none
  | (k, v) :: es => if isMergeKey k then some (mergeSources v) else mergeSources? es

def mergeSources : Value → Except MergeError (List (List (Value × Expanded)))
  | .map entries => .ok [expandEntries entries]
  | .seq items => mergeItems items
  | .tagged .. => .error .tagged
  | _ => .error .scalar

def mergeItems : List Value → Except MergeError (List (List (Value × Expanded)))
  | [] => .ok []
  | .map entries :: vs => do
    let more ← mergeItems vs
    return expandEntries entries :: more
  | .seq _ :: _ => .error .sequenceItem
  | .tagged .. :: _ => .error .tagged
  | _ :: _ => .error .scalarItem

end

end Questionnaire.Yaml
