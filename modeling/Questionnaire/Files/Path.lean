/-! Paths as text, with `/` between names. -/
namespace Questionnaire.Files

/-- Does a path start at the root? -/
def isAbsolute (path : String) : Bool := path.toList.head? == some '/'

/-- Does a path ask for a directory at its end? -/
def endsInSlash (path : String) : Bool := path.toList.getLast? == some '/'

/-- A path below another one. An absolute path replaces what is before it, and no second `/` is put
behind one. -/
def joinPath (root path : String) : String :=
  if isAbsolute path || root.isEmpty then path
  else if endsInSlash root then root ++ path
  else root ++ "/" ++ path

/-- A step of a path. A `/` at the end asks for a directory. -/
inductive Component
  | here
  | up
  | name (text : String)
  | slash
  deriving DecidableEq, Repr

def Component.ofText (text : String) : Component :=
  if text = "." then .here else if text = ".." then .up else .name text

/-- The parts of a path before, between and behind its slashes. -/
def splitPath : List Char → List (List Char)
  | [] => [[]]
  | c :: cs =>
    if c = '/' then [] :: splitPath cs
    else match splitPath cs with
      | [] => [[c]]
      | part :: parts => (c :: part) :: parts

/-- The steps of a path; empty parts are none, and whether it is absolute is not part of them. -/
def components (path : String) : List Component :=
  let parts := (splitPath path.toList).filter (!·.isEmpty)
  let steps := parts.map fun cs => Component.ofText (String.ofList cs)
  if endsInSlash path && !steps.isEmpty then steps ++ [.slash] else steps

end Questionnaire.Files
