import LogProbe.Syntax.Dialect

/-! The files of a system: reading and writing them, and the search for scripts below a path. Names
and contents are bytes. -/
namespace LogProbe

/-- A file or a directory with its name. -/
inductive Entry where
  | file (name content : Bytes)
  | directory (name : Bytes) (entries : List Entry)

/-- What a system says where it does not do what it is asked to. -/
inductive FileError where
  | notFound
  | notDirectory
  | isDirectory
  | nameTooLong
  | denied
  | notText
  | other (message : Text)
  deriving DecidableEq, Repr

namespace FileError

def message : FileError → Text
  | notFound => "No such file or directory (os error 2)".toList
  | notDirectory => "Not a directory (os error 20)".toList
  | isDirectory => "Is a directory (os error 21)".toList
  | nameTooLong => "File name too long (os error 36)".toList
  | denied => "Permission denied (os error 13)".toList
  | notText => "stream did not contain valid UTF-8".toList
  | other message => message

end FileError

namespace Entry

def name : Entry → Bytes
  | file name _ => name
  | directory name _ => name

def isDirectory : Entry → Bool
  | file _ _ => false
  | directory _ _ => true

/-- The entry at a location, which is the list of the names on the way to it. -/
def at? : List Bytes → Entry → Option Entry
  | [], e => some e
  | _ :: _, file _ _ => none
  | x :: rest, directory _ entries => (entries.find? (·.name == x)).bind (at? rest)

/-- Gives the file at a location a content. A file that is missing is made if its directory is
there. -/
def setContent (content : Bytes) : List Bytes → Entry → Entry
  | [], file name _ => file name content
  | [], directory name entries => directory name entries
  | _ :: _, file name old => file name old
  | x :: rest, directory name entries =>
    if entries.any (·.name == x) then
      directory name (entries.map fun e => if e.name == x then setContent content rest e else e)
    else directory name (if rest.isEmpty then entries ++ [file x content] else entries)

/-- The largest number of bytes in a name, and one more than that in a path. -/
def maxNameSize : Nat := 255

def pathBound : Nat := 4096

/-- Where the pieces of a path lead to from a location. The way up from the outermost directory
leads to itself. -/
def walk (root : Entry) : List Bytes → List Bytes → Except FileError (List Bytes)
  | location, [] => .ok location
  | location, piece :: path =>
    match root.at? location with
    | none => .error .notFound
    | some (file _ _) => .error .notDirectory
    | some (directory _ _) =>
      if piece = [] ∨ piece = [Path.dot] then walk root location path
      else if piece = [Path.dot, Path.dot] then walk root location.dropLast path
      else if maxNameSize < piece.length then .error .nameTooLong
      else if (root.at? (location ++ [piece])).isSome then walk root (location ++ [piece]) path
      else .error .notFound

/-- The path of an entry of the directory at `path`. -/
def pathBelow (path name : Bytes) : Bytes :=
  if path.getLast? = some Path.slash then path ++ name else path ++ Path.slash :: name

/-- Names of directories that a search does not enter: installed packages and what is hidden. Only
what can be read is compared. -/
def isHidden (name : Bytes) : Bool :=
  name.text?.any fun t => t == "node_modules".toList || Text.startsWith t '.'

def isSkipped : Entry → Bool
  | file _ _ => false
  | directory name _ => isHidden name

mutual
/-- The paths of the scripts below an entry with the given path. -/
def scripts (path : Bytes) : Entry → List Bytes
  | file _ _ => if (Dialect.ofPath? path).isSome then [path] else []
  | directory _ entries => scriptsIn path entries

def scriptsIn (path : Bytes) : List Entry → List Bytes
  | [] => []
  | e :: rest =>
    (if e.isSkipped then [] else scripts (pathBelow path e.name) e) ++ scriptsIn path rest
end

/-- The files that a path stands for: itself, or the scripts below a directory. -/
def expandPath (path : Bytes) (e : Entry) : List Bytes :=
  if e.isDirectory then scripts path e else [path]

end Entry

/-- All files of a system, below its outermost directory, and the location of the directory in which
a program runs. -/
structure Disk where
  root : Entry
  here : List Bytes

namespace Disk

/-- Where a path starts: at the outermost directory, or in that of the program. -/
def start (d : Disk) (path : Bytes) : List Bytes :=
  if path.head? = some Path.slash then [] else d.here

/-- The location that a path leads to. -/
def locate (d : Disk) (path : Bytes) : Except FileError (List Bytes) :=
  if path = [] then .error .notFound
  else if Entry.pathBound ≤ path.length then .error .nameTooLong
  else d.root.walk (d.start path) (path.splitOn Path.slash)

def find (d : Disk) (path : Bytes) : Except FileError Entry := do
  match d.root.at? (← d.locate path) with
  | some e => .ok e
  | none => .error .notFound

def read (d : Disk) (path : Bytes) : Except FileError Text := do
  match ← d.find path with
  | .directory _ _ => .error .isDirectory
  | .file _ content =>
    match content.text? with
    | some text => .ok text
    | none => .error .notText

/-- Where a path leads to, or would lead to if it ended at a new file in a directory. -/
def target (d : Disk) (path : Bytes) : Except FileError (List Bytes) :=
  match d.locate path with
  | .error .notFound => do
    let pieces := path.splitOn Path.slash
    match ← d.root.walk (d.start path) pieces.dropLast, pieces.getLast? with
    | _, none | _, some [] => .error .notFound
    | around, some name => .ok (around ++ [name])
  | result => result

/-- The disk with a text in the file at a path. -/
def write (d : Disk) (path : Bytes) (text : Text) : Except FileError Disk := do
  let location ← d.target path
  match d.root.at? location with
  | some (.directory _ _) => .error .isDirectory
  | _ => .ok { d with root := d.root.setContent (Bytes.ofText text) location }

/-- The files that paths stand for, each once and in the order of paths, or the first path that
does not exist. -/
def collect (d : Disk) (paths : List Bytes) : Except Bytes (List Bytes) := do
  let files ← paths.mapM fun path =>
    match d.find path with
    | .ok e => .ok (e.expandPath path)
    | .error _ => .error path
  return Path.sortDistinct files.flatten

end Disk
end LogProbe
