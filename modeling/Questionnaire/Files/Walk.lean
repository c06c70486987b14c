import Questionnaire.Files.Tree

/-!
The files below a directory. Links are not followed into directories: an entry counts if it is a
file, or a link that leads to one.
-/
namespace Questionnaire.Files

mutual

/-- The paths of the files at or below an entry, whose own path is given. -/
def Entry.walk (t : Tree) (path : String) : Entry → List String
  | .file _ => [path]
  | .link _ =>
    match t.entry path with
    | .ok e => if e.isFile then [path] else []
    | .error _ => []
  | .dir entries => walkEntries t path entries

/-- The paths of the files below a directory, in listing order; what lies below an entry stands at
the place of the entry. -/
def walkEntries (t : Tree) (path : String) : List (String × Entry) → List String
  | [] => []
  | (name, e) :: es => Entry.walk t (joinPath path name) e ++ walkEntries t path es

end

/-- The files below a root, which may be a link to a directory itself. -/
def Tree.walk (t : Tree) (root : String) : Except IoError (List String) := do
  return walkEntries t root (← t.readDir root)

end Questionnaire.Files
