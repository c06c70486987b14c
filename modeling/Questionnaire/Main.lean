import Questionnaire.Run.Command

/-!
The program. It takes a picture of the input and output directories, runs on the picture, and then
writes the files of the output directory that have changed.
-/
namespace Questionnaire
open Files

/-- The variables that are looked at, as far as they are set. -/
def environment : IO (String → Option String) := do
  let names := ["INPUT_ROOT", "OUTPUT_ROOT", "MAX_CONCURRENT_FILES", "VERBOSE_LOGGING",
    "STRICT_EXIT", "RUST_LOG"]
  let found ← names.filterMapM fun name => return (← IO.getEnv name).map fun text => (name, text)
  return fun name => found.lookup name

/-- What is at an entry of a directory. A link shows the file that it leads to; a directory behind a
link shows nothing of what is in it. -/
partial def picture (e : IO.FS.DirEntry) : IO (Option Entry) := do
  match (← e.path.symlinkMetadata).type with
  | .dir =>
    let entries ← e.path.readDir
    let below ← entries.toList.filterMapM fun e => return (← picture e).map fun p => (e.fileName, p)
    return some (.dir below)
  | .symlink =>
    if ← e.path.isDir then return some (.dir [])
    else if ← e.path.pathExists then return some (.file (← IO.FS.readBinFile e.path))
    else return none
  | _ => return some (.file (← IO.FS.readBinFile e.path))

/-- Puts an entry at a path, with the directories above it. -/
def placed (t : Tree) (path : String) (e : Entry) : Except IoError Tree := do
  let t ← t.makeDirs path
  match ← t.locate path with
  | .entry place _ => return t.put place e
  | .missing .. => throw .notFound

/-- The tree with a picture of what is at a path. -/
def withPicture (t : Tree) (path : String) : IO Tree := do
  let .ok place ← (IO.FS.realPath path).toBaseIO | return t
  let found ← if ← place.isDir then picture ⟨place, "."⟩ else pure (some (.file .empty))
  match found with
  | some e => return (placed t path e).toOption.getD t
  | none => return t

/-- A tree with a picture of what is at two paths. -/
def pictures (input output : String) : IO Tree := do
  let cwd := (← IO.currentDir).toString
  let names := (components cwd).filterMap fun c => match c with
    | .name n => some n
    | _ => none
  let t : Tree := ⟨.dir [], []⟩
  let t := (t.makeDirs cwd).toOption.getD t
  withPicture (← withPicture { t with cwd := names } input) output

/-- The files of a directory that are new or have changed. -/
def changes (before after : Entries) : List (String × ByteArray) :=
  after.filterMap fun (name, e) => match e, Entry.child? name (.dir before) with
    | .file content, some (.file old) => if content == old then none else some (name, content)
    | .file content, _ => some (name, content)
    | _, _ => none

/-- The entries of a directory; none if there is no directory. -/
def entriesAt (t : Tree) (path : String) : Entries := (t.readDir path).toOption.getD []

end Questionnaire

open Questionnaire in
def main : IO UInt32 := do
  let lookup ← environment
  let config := Config.ofVariables lookup
  let before ← pictures config.inputRoot config.outputRoot
  let outcome := command lookup before
  let old := entriesAt before config.outputRoot
  for (name, content) in changes old (entriesAt outcome.tree config.outputRoot) do
    IO.FS.writeBinFile (Files.joinPath config.outputRoot name) content
  for line in logLines outcome.log do
    IO.println line
  IO.eprint outcome.errorText
  return outcome.exitCode.toUInt32
