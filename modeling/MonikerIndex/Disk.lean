import MonikerIndex.Error

/-!
# Files

What a command needs of a file system: whether something is there, its text, and to replace it. A
`Directory` is a file system in memory: it holds some files, the directories on the way to them and
those above it, and nothing else.

A path is followed part by part, and every part but the last must lead to a directory. The parts
`.` and `..` and an empty part stay in a directory or go up from it, so a file cannot stand before
them. A path that ends in a slash can only be that of a directory.
-/

namespace MonikerIndex

/-- Access to files by their paths. -/
structure Disk (m : Type → Type) where
  /-- Whether there is a file or directory. -/
  isPresent : String → m Bool
  /-- The text of a file. -/
  read : String → m (Except FileError String)
  /-- Replaces the text of a file, or creates it. -/
  write : String → String → m (Except FileError Unit)

/-- Files in memory, by the names on the way to them. -/
structure Directory where
  files : List (List String × String) := []
  deriving DecidableEq, Repr, Inhabited

namespace Directory

/-! ### Paths -/

/-- What stands between the slashes. -/
def split : List Char → List (List Char)
  | [] => [[]]
  | c :: chars =>
      if c = '/' then [] :: split chars
      else
        match split chars with
        | [] => [[c]]
        | first :: others => (c :: first) :: others

/-- The parts of a path. -/
def parts (path : String) : List String :=
  (split path.toList).map String.ofList

/-- Whether a part leads to a directory by its form. -/
def isDots (part : String) : Bool :=
  part == "" || part == "." || part == ".."

/-- Where a path starts. The root of the file system has a slash for its name, which is the name of
    no file. -/
def start (path : String) : List String :=
  if path.toList.head? = some '/' then ["/"] else []

/-- The directory above another one. The root is above itself. -/
def above (place : List String) : List String :=
  match place.getLast? with
  | none => [".."]
  | some name =>
      if name = "/" then place else if name = ".." then place ++ [".."] else place.dropLast

/-- The greatest size of a name in bytes. -/
def nameLimit : Nat := 255

/-- The greatest size of a path in bytes. -/
def pathLimit : Nat := 4095

/-! ### Places -/

/-- Whether there is a directory at a place. -/
def isFolder (directory : Directory) (place : List String) : Bool :=
  place.all (· == "..") || place == ["/"] ||
    directory.files.any fun (other, _) => place.isPrefixOf other && place.length < other.length

/-- Goes on from a directory by one part of a path. -/
def enter (directory : Directory) (place : List String) (part : String) :
    Except FileError (List String) :=
  if part = "" ∨ part = "." then .ok place
  else if part = ".." then .ok (above place)
  else if nameLimit < part.utf8ByteSize then .error .nameTooLong
  else if directory.isFolder (place ++ [part]) then .ok (place ++ [part])
  else if (directory.files.lookup (place ++ [part])).isSome then .error .notDirectory
  else .error .missing

/-- Follows the parts of a path to a directory. -/
def follow (directory : Directory) (path : String) (parts : List String) :
    Except FileError (List String) :=
  if path.toList.contains '\x00' then .error .nulInName
  else if pathLimit < path.utf8ByteSize then .error .nameTooLong
  else parts.foldlM directory.enter (start path)

/-- The place that a path names, or none if it names a directory by its form. -/
def locate (directory : Directory) (path : String) : Except FileError (Option (List String)) := do
  let folder ← directory.follow path (parts path).dropLast
  let name := (parts path).getLastD ""
  if isDots name then return none
  if nameLimit < name.utf8ByteSize then throw .nameTooLong
  return some (folder ++ [name])

/-- What is found at a place. -/
inductive Found where
  | folder
  | file (text : String)
  /-- Nothing, in a directory that exists. -/
  | vacant
  deriving DecidableEq, Repr, Inhabited

/-- Looks up a place in a directory that exists. -/
def look (directory : Directory) (place : List String) : Found :=
  match directory.files.lookup place with
  | some text => .file text
  | none => if directory.isFolder place then .folder else .vacant

/-- Looks up a path. -/
def find (directory : Directory) (path : String) : Except FileError Found :=
  (directory.locate path).map fun place => place.elim .folder directory.look

/-! ### Access -/

/-- The directory with a file's text replaced, or with the file added at the end. -/
def put (directory : Directory) (place : List String) (text : String) : Directory :=
  if directory.files.any (·.1 == place) then
    ⟨directory.files.map fun (other, old) => (other, if other == place then text else old)⟩
  else ⟨directory.files ++ [(place, text)]⟩

/-- A directory with the given files, and with the directories on the way to them. -/
def ofEntries (entries : List (String × String)) : Directory :=
  entries.foldl (fun directory (path, text) =>
    directory.put (start path ++ (parts path).filter (!isDots ·)) text) {}

/-- Whether there is a file or directory. -/
def isPresent (directory : Directory) (path : String) : Bool :=
  match directory.find path with
  | .ok .folder | .ok (.file _) => true
  | _ => false

/-- The text of a file. -/
def read (directory : Directory) (path : String) : Except FileError String := do
  match ← directory.find path with
  | .file text => return text
  | .folder => throw .isDirectory
  | .vacant => throw .missing

/-- Replaces the text of a file, or creates it. At a path that ends in a slash there can only be a
    directory, whether it exists or not. -/
def write (directory : Directory) (path text : String) : Except FileError Directory := do
  if path.toList.getLast? = some '/' then
    let named := ((parts path).reverse.dropWhile (· == "")).reverse
    let _ ← directory.follow path named.dropLast
    throw .isDirectory
  match ← directory.locate path with
  | none => throw .isDirectory
  | some place =>
      match directory.look place with
      | .folder => throw .isDirectory
      | .file _ | .vacant => return directory.put place text

/-- A directory as the state of a computation. -/
def disk : Disk (StateM Directory) where
  isPresent path := return (← get).isPresent path
  read path := return (← get).read path
  write path text := do
    match (← get).write path text with
    | .ok directory =>
        set directory
        return .ok ()
    | .error cause => return .error cause

end Directory

end MonikerIndex
