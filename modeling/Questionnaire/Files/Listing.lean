import Questionnaire.Files.Tree
import Questionnaire.Text.Utf8

/-! Everything below a directory, the entries of each directory in the order of their names. -/
namespace Questionnaire.Files

inductive Listed
  | dir
  | link
  | file (text : String)

/-- Listings in the order of names. -/
def joined (ls : List (String × List (String × Listed))) : List (String × Listed) :=
  (ls.mergeSort fun a b => a.1 ≤ b.1).flatMap (·.2)

mutual

/-- An entry under its path, and what is below it. -/
def Entry.listing (path : String) : Entry → List (String × Listed)
  | .file content => [(path, .file (Text.ofBytes content))]
  | .link _ => [(path, .link)]
  | .dir entries => (path, .dir) :: joined (listings path entries)

/-- The listings of entries, with their names. -/
def listings (path : String) : List (String × Entry) → List (String × List (String × Listed))
  | [] => []
  | (name, e) :: es => (name, e.listing (path ++ "/" ++ name)) :: listings path es

end

/-- What is below a path; nothing if there is no directory. -/
def Tree.listing (t : Tree) (path : String) : List (String × Listed) :=
  match t.readDir path with
  | .ok entries => joined (listings path entries)
  | .error _ => []

end Questionnaire.Files
