import LogProbe.Proofs.CommandLine.Documents
import LogProbe.Proofs.CommandLine.PathOrder
import Mathlib.Data.List.Sort
import Mathlib.Data.List.TakeWhile

/-! The files that paths stand for. A search below a directory finds the scripts that names lead to
without passing through a directory that is skipped; what all paths stand for is put in order, one
file for all that have the same components. -/
namespace LogProbe

/-- The extensions of scripts. -/
def scriptExtensions : List Text :=
  ["js", "mjs", "cjs", "jsx", "ts", "mts", "cts", "tsx"].map String.toList

/-- A name with the extension of a script behind its last dot, in whatever case, and something in
front of it, which need not be a text. -/
def IsScriptName (name : Bytes) : Prop :=
  ∃ stem ending extension, name = stem ++ Path.dot :: ending ∧ stem ≠ [] ∧ Path.dot ∉ ending ∧
    Bytes.text? ending = some extension ∧ extension.map Char.toLower ∈ scriptExtensions

/-- A name that is the form of a text which names installed packages or starts with a dot. -/
def IsHiddenName (name : Bytes) : Prop :=
  ∃ t : Text, name = Bytes.ofText t ∧ (t = "node_modules".toList ∨ t.head? = some '.')

/-- A name that an entry can have: one piece of a path that leads down. -/
structure IsName (b : Bytes) : Prop where
  ne_nil : b ≠ []
  noSlash : Path.slash ∉ b
  notHere : b ≠ [Path.dot]
  notUp : b ≠ [Path.dot, Path.dot]

instance (b : Bytes) : Decidable (IsName b) :=
  decidable_of_iff (b ≠ [] ∧ Path.slash ∉ b ∧ b ≠ [Path.dot] ∧ b ≠ [Path.dot, Path.dot])
    ⟨fun ⟨hne, hslash, hhere, hup⟩ => ⟨hne, hslash, hhere, hup⟩,
      fun ⟨hne, hslash, hhere, hup⟩ => ⟨hne, hslash, hhere, hup⟩⟩

theorem IsName.pieceComponent? {b : Bytes} (h : IsName b) :
    Path.pieceComponent? b = some (.name b) := by
  obtain ⟨hne, -, hhere, hup⟩ := h
  simp [Path.pieceComponent?, hne, hhere, hup]

namespace Path
variable {path name : Bytes}

end Path

namespace Entry
variable {e : Entry} {path f : Bytes}

/-- All entries below have names that paths can have. -/
inductive WellNamed : Entry → Prop
  | file (name content : Bytes) : WellNamed (file name content)
  | directory (name : Bytes) {entries : List Entry} (names : ∀ e ∈ entries, IsName e.name)
      (inside : ∀ e ∈ entries, WellNamed e) : WellNamed (directory name entries)

/-- The names lead to a script below a directory, through directories that are neither installed
packages nor hidden. -/
inductive Reaches : Entry → List Bytes → Prop
  | script {own name content : Bytes} {entries : List Entry}
      (mem : file name content ∈ entries) (script : IsScriptName name) :
      Reaches (directory own entries) [name]
  | enter {own name : Bytes} {entries inner : List Entry} {names : List Bytes}
      (mem : directory name inner ∈ entries) (shown : ¬ IsHiddenName name)
      (rest : Reaches (directory name inner) names) :
      Reaches (directory own entries) (name :: names)

theorem Reaches.isDirectory {names : List Bytes} (h : Reaches e names) :
    e.isDirectory = true := by
  cases h <;> rfl

/-- What stands below an entry has proper names if the entry has. -/
theorem WellNamed.at? {root : Entry} (h : WellNamed root) {location : List Bytes}
    (hat : root.at? location = some e) : WellNamed e := by
  induction location generalizing root with
  | nil =>
    cases hat
    exact h
  | cons x rest ih =>
    cases h with
    | file => cases hat
    | directory name _ inside =>
      obtain ⟨next, hfound, hnext⟩ := Option.bind_eq_some_iff.mp hat
      exact ih (inside next (List.mem_of_find?_eq_some hfound)) hnext

end Entry

namespace Disk
open Entry
variable {d : Disk} {path f : Bytes} {paths files : List Bytes}

end Disk
end LogProbe
