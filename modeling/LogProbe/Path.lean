import LogProbe.Text.Utf8

/-! Paths as they are typed: their components, the order of paths and file name extensions. -/
namespace LogProbe

inductive Component where
  | root
  | here
  | up
  | name (bytes : Bytes)
  deriving DecidableEq, Repr

namespace Component

def rank : Component → Nat
  | root => 0
  | here => 1
  | up => 2
  | name _ => 3

def precedes : Component → Component → Bool
  | name a, name b => a < b
  | a, b => a.rank < b.rank

end Component

namespace Path

def slash : UInt8 := 0x2F

def dot : UInt8 := 0x2E

def pieceComponent? (piece : Bytes) : Option Component :=
  if piece = [] ∨ piece = [dot] then none
  else if piece = [dot, dot] then some .up
  else some (.name piece)

/-- The component in front of the first slash. A dot counts there alone. -/
def startComponent? (piece : Bytes) : Option Component :=
  if piece = [dot] then some .here else pieceComponent? piece

/-- The components of a path. Repeated slashes count once. -/
def components (path : Bytes) : List Component :=
  match path.splitOn slash with
  | [] => []
  | first :: rest =>
    let start := if path.head? = some slash then some .root else startComponent? first
    start.toList ++ rest.filterMap pieceComponent?

/-- The order of paths, component by component. -/
def precedes : List Component → List Component → Bool
  | [], b => !b.isEmpty
  | _ :: _, [] => false
  | x :: xs, y :: ys => x.precedes y || (x == y && precedes xs ys)

/-- Sorts by components and keeps the first of the paths with the same components. -/
def sortDistinct (paths : List Bytes) : List Bytes :=
  distinct (paths.mergeSort fun a b => !precedes (components b) (components a))
where
  distinct : List Bytes → List Bytes
    | [] => []
    | path :: rest =>
      path :: (distinct rest).dropWhile fun next => components next == components path

def fileName? (path : Bytes) : Option Bytes :=
  match (components path).getLast? with
  | some (.name b) => some b
  | _ => none

/-- What follows the last dot of a name, unless that dot comes first. -/
def nameExtension? (name : Bytes) : Option Bytes :=
  let ending := (name.reverse.takeWhile (· != dot)).reverse
  if name.length ≤ ending.length + 1 then none else some ending

def extension? (path : Bytes) : Option Bytes := (fileName? path).bind nameExtension?

end Path
end LogProbe
