import Questionnaire.Files.Path

/-!
A file system as a value: directories with their entries in listing order, files with their bytes,
and symbolic links with the text they hold. There are no pipes, sockets or devices, and names are
text. Paths are followed from the root or from a working directory; every operation is a function of
the whole tree.

Changing one entry of a directory leaves the others alone (`Entries.child?_alter_of_ne`).
-/
namespace Questionnaire.Files

inductive IoError
  | notFound
  | notDirectory
  | isDirectory
  | nameTooLong
  | tooManyLinks
  | invalidUtf8
  | nulInName
  deriving DecidableEq, Repr

def IoError.message : IoError → String
  | .notFound => "No such file or directory (os error 2)"
  | .notDirectory => "Not a directory (os error 20)"
  | .isDirectory => "Is a directory (os error 21)"
  | .nameTooLong => "File name too long (os error 36)"
  | .tooManyLinks => "Too many levels of symbolic links (os error 40)"
  | .invalidUtf8 => "stream did not contain valid UTF-8"
  | .nulInName => "file name contained an unexpected NUL byte"

inductive Entry
  | file (content : ByteArray)
  | link (target : String)
  | dir (entries : List (String × Entry))

abbrev Entries := List (String × Entry)

namespace Entry

def isDir : Entry → Bool
  | .dir _ => true
  | _ => false

def isFile : Entry → Bool
  | .file _ => true
  | _ => false

/-- The entry of a name. -/
def child? (name : String) : Entry → Option Entry
  | .dir entries => (entries.find? fun e => e.1 == name).map (·.2)
  | _ => none

/-- The entry that names lead to, links not being followed. -/
def at? : List String → Entry → Option Entry
  | [], e => some e
  | name :: names, e => (e.child? name).bind (at? names)

end Entry

/-- Changes the entry of a name: a new one goes to the end. -/
def Entries.alter (name : String) (f : Option Entry → Option Entry) : Entries → Entries
  | [] => match f none with
    | some e => [(name, e)]
    | none => []
  | (n, e) :: es =>
    if n == name then
      match f (some e) with
      | some e => (n, e) :: es
      | none => es
    else (n, e) :: alter name f es

@[simp]
theorem Entries.child?_alter_const (name : String) (e : Entry) (es : Entries) :
    (Entry.dir (alter name (fun _ => some e) es)).child? name = some e := by
  induction es with
  | nil => simp [alter, Entry.child?]
  | cons head es ih =>
    simp only [Entry.child?] at ih
    by_cases h : head.1 = name <;> simp [alter, Entry.child?, h, ih]

theorem Entries.child?_alter_of_ne {name other : String} (h : other ≠ name)
    (f : Option Entry → Option Entry) (es : Entries) :
    (Entry.dir (alter name f es)).child? other = (Entry.dir es).child? other := by
  induction es with
  | nil =>
    cases hf : f none with
    | none => simp [alter, hf]
    | some e => simp [alter, hf, Entry.child?, h.symm]
  | cons head es ih =>
    simp only [Entry.child?] at ih
    by_cases hn : head.1 = name
    · cases hf : f (some head.2) with
      | none => simp [alter, hn, hf, Entry.child?, h.symm]
      | some e => simp [alter, hn, hf, Entry.child?, h.symm]
    · by_cases ho : head.1 = other
      · simp [alter, Entry.child?, ho, h]
      · simp [alter, hn, Entry.child?, ho, ih]

/-- Changes the entry at the end of names that lead through directories. -/
def Entry.alter (f : Option Entry → Option Entry) : List String → Entry → Entry
  | [], e => (f (some e)).getD e
  | [name], .dir entries => .dir (Entries.alter name f entries)
  | name :: names, .dir entries =>
    .dir (Entries.alter name (fun e? => e?.map (Entry.alter f names)) entries)
  | _, e => e

/-- A root directory and the names of the working directory. -/
structure Tree where
  root : Entry
  cwd : List String

namespace Tree

/-- A tree with nothing but an empty working directory. -/
def empty : Tree := ⟨.dir [("work", .dir [])], ["work"]⟩

/-- The longest name of an entry, in bytes. -/
def maxName : Nat := 255

/-- The symbolic links that are followed for one path. -/
def maxLinks : Nat := 40

/-- What is found on the way: the end of it, a name that is not there, or a link. -/
inductive Stop
  | found (place : List String) (entry : Entry)
  | missing (place : List String) (name : String) (rest : List Component)
  | linked (place : List String) (target : String) (rest : List Component)
  | failed (e : IoError)

/-- Goes down from a place until a link is met. On the way to a file that may have to be made, a
last name with a `/` behind it is that of a directory, whatever is there. -/
def descend (root : Entry) (make : Bool) : List String → Entry → List Component → Stop
  | place, e, [] => .found place e
  | place, .dir entries, c :: cs =>
    match c with
    | .here | .slash => descend root make place (.dir entries) cs
    | .up =>
      match root.at? place.dropLast with
      | some parent => descend root make place.dropLast parent cs
      | none => .failed .notFound
    | .name n =>
      if make && cs == [.slash] then .failed .isDirectory
      else if maxName < n.utf8ByteSize then .failed .nameTooLong
      else match Entry.child? n (.dir entries) with
        | none => .missing place n cs
        | some (.link target) => .linked place target cs
        | some e => descend root make (place ++ [n]) e cs
  | _, _, _ :: _ => .failed .notDirectory

/-- Where a path leads when links are followed. -/
inductive Found
  | entry (place : List String) (entry : Entry)
  | missing (place : List String) (name : String) (rest : List Component)

/-- Goes down from a place through so many links. -/
def follow (root : Entry) (make : Bool) :
    Nat → List String → Entry → List Component → Except IoError Found
  | links, place, e, cs =>
    match descend root make place e cs with
    | .found place e => .ok (.entry place e)
    | .missing place n rest => .ok (.missing place n rest)
    | .failed e => .error e
    | .linked place target rest =>
      match links with
      | 0 => .error .tooManyLinks
      | links + 1 =>
        let cs := components target ++ rest
        if isAbsolute target then follow root make links [] root cs
        else match root.at? place with
          | some e => follow root make links place e cs
          | none => .error .notFound

/-- Follows steps from the root or the working directory. -/
def followFrom (t : Tree) (make absolute : Bool) (cs : List Component) : Except IoError Found :=
  if absolute then follow t.root make maxLinks [] t.root cs
  else match t.root.at? t.cwd with
    | some e => follow t.root make maxLinks t.cwd e cs
    | none => .error .notFound

/-- Where a path leads, perhaps to a file that may have to be made. -/
def locate (t : Tree) (path : String) (make : Bool := false) : Except IoError Found :=
  if path.toList.contains '\x00' then .error .nulInName
  else if path.isEmpty then .error .notFound
  else t.followFrom make (isAbsolute path) (components path)

/-- The entry that a path leads to, which is not a link. -/
def entry (t : Tree) (path : String) : Except IoError Entry := do
  match ← t.locate path with
  | .entry _ e => return e
  | .missing .. => throw .notFound

/-- The text of a file. -/
def readText (t : Tree) (path : String) : Except IoError String := do
  match ← t.entry path with
  | .file content => match String.fromUTF8? content with
    | some text => return text
    | none => throw .invalidUtf8
  | _ => throw .isDirectory

/-- The entries of a directory. -/
def readDir (t : Tree) (path : String) : Except IoError Entries := do
  match ← t.entry path with
  | .dir entries => return entries
  | _ => throw .notDirectory

def put (t : Tree) (place : List String) (e : Entry) : Tree :=
  { t with root := t.root.alter (fun _ => some e) place }

/-- Gives a file a new content, or makes a new file in a directory that exists. -/
def writeFile (t : Tree) (path : String) (content : ByteArray) : Except IoError Tree := do
  match ← t.locate path true with
  | .entry _ (.dir _) => throw .isDirectory
  | .entry place _ => return t.put place (.file content)
  | .missing place name [] => return t.put (place ++ [name]) (.file content)
  | .missing .. => throw .notFound

def writeText (t : Tree) (path : String) (text : String) : Except IoError Tree :=
  t.writeFile path text.toUTF8

/-- Makes the directories on a way that are not there yet. -/
def makeWay (t : Tree) (absolute : Bool) (cs : List Component) : Except IoError Tree :=
  (List.range cs.length).foldlM (fun t i => do
    match ← t.followFrom false absolute (cs.take (i + 1)) with
    | .entry .. => return t
    | .missing place name _ => return t.put (place ++ [name]) (.dir [])) t

/-- Makes a directory and those above it. -/
def makeDirs (t : Tree) (path : String) : Except IoError Tree :=
  t.makeWay (isAbsolute path) (components path)

/-- The way to the last name of a path, and that name. -/
def parentOf (path : String) : List Component × Option String :=
  match (components path).reverse.dropWhile (· == .slash) with
  | .name n :: parents => (parents.reverse, some n)
  | parents => (parents.reverse, none)

/-- Puts an entry of any kind at a path, or takes away what is there. A link at the end is not
followed. -/
def set (t : Tree) (path : String) (e : Option Entry) : Except IoError Tree := do
  let (parents, name) := parentOf path
  match ← t.followFrom false (isAbsolute path) parents, name with
  | .entry place (.dir _), some n =>
    return { t with root := t.root.alter (fun _ => e) (place ++ [n]) }
  | _, _ => throw .notFound

/-- Gives a file its content, making it and the directories above it where needed. -/
def putFile (t : Tree) (path : String) (content : ByteArray) : Except IoError Tree := do
  let t ← t.makeWay (isAbsolute path) (parentOf path).1
  t.writeFile path content

end Tree
end Questionnaire.Files
