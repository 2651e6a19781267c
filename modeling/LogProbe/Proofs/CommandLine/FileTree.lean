import LogProbe.CommandLine.FileTree
import LogProbe.Proofs.Text.Utf8

/-! Locations in a file tree. A path leads to a location, which is the same in all trees in which
the same files and directories stand at the same locations; giving a file another content changes
what stands at its location alone. -/
namespace LogProbe

namespace Entry

/-- An entry without what is below it. -/
def facade : Entry → Entry
  | file name content => file name content
  | directory name _ => directory name []

/-- What stands at a location: a file with its content, or a directory. -/
def look (root : Entry) (location : List Bytes) : Option Entry := (root.at? location).map facade

/-- Whether a directory stands at a location, or a file, or nothing. -/
def isDirectoryAt? (root : Entry) (location : List Bytes) : Option Bool :=
  (root.at? location).map isDirectory

/-- The same files and directories stand at the same locations. -/
def Alike (e f : Entry) : Prop := ∀ location, e.isDirectoryAt? location = f.isDirectoryAt? location

/-- The content of the file at a location. -/
def contentAt? (root : Entry) (location : List Bytes) : Option Bytes :=
  match root.at? location with
  | some (file _ content) => some content
  | _ => none

section Content
variable {content old own : Bytes}

@[simp] theorem name_setContent (content : Bytes) (target : List Bytes) (e : Entry) :
    (setContent content target e).name = e.name := by
  cases target <;> cases e <;> try rfl
  rw [setContent]
  split <;> rfl

end Content

/-! A walk asks of each location only whether a directory or a file stands there. -/

end Entry

namespace Disk

/-- Runs go on in the same directory of trees that are alike. -/
structure Alike (d e : Disk) : Prop where
  here : d.here = e.here
  root : Entry.Alike d.root e.root

theorem Alike.refl (d : Disk) : Alike d d := ⟨rfl, fun _ => rfl⟩

variable {d e : Disk} {path : Bytes} {location : List Bytes}

section Write
variable {before : Disk} {old : Text} (hread : before.read path = .ok old)
  (halike : Alike d before)
include hread halike

end Write
end Disk
end LogProbe
