import LogProbe.Proofs.CommandLine.Documents
import LogProbe.Proofs.Log.Removal

/-! What a run leaves on the disk. Nothing is written before all documents have been read, edited and
formatted; then those that have changed are saved in their order, each with its final text. -/
namespace LogProbe

def Invocation.settings : Invocation → Settings
  | .insert _ _ settings => settings
  | .delete _ settings => settings

namespace Arguments

end Arguments

namespace Outcome

end Outcome

namespace Run

/-- The files that an invocation is about. -/
def sources (s : Surroundings) : Invocation → Except Bytes (List Bytes)
  | .insert path _ _ => .ok [path]
  | .delete paths _ => s.disk.collect paths

def selected (spans : List PositionSpan) (d : Document) : Document :=
  { d with editor := { d.editor with selections := spans.map (·.selectionIn d.text) } }

/-- What an invocation does with a document. Planning, applying and formatting can fail. -/
def edit (s : Surroundings) :
    Invocation → World × Document → (World × Document) × Except Failure Unit
  | .insert _ spans settings, (w, d) =>
    (Document.insertLogs s.parser s.launcher settings.formatter (w, selected spans d)).map id
      (·.map fun _ => ())
  | .delete _ settings, p =>
    (Document.removeLogs s.parser s.launcher settings.formatter p).map id (·.map fun _ => ())

/-- The documents of all files. -/
def Opens (s : Surroundings) (settings : Settings) (files : List Bytes)
    (documents : List Document) : Prop :=
  List.Forall₂ (fun path d => openFile s settings path = .ok d) files documents

/-- The documents of all files, opened and then edited one after the other. -/
def Finishes (s : Surroundings) (invocation : Invocation) (documents : List Document) : Prop :=
  ∃ files opened finals w, sources s invocation = .ok files ∧
    Opens s invocation.settings files opened ∧
    Command.Succeeds (edit s invocation) ⟨s.disk, 0⟩ opened finals w ∧
    documents = finals.map (·.1)

section Spec
variable {s : Surroundings} {invocation : Invocation}

theorem Opens.unique {settings : Settings} {files : List Bytes} {documents others : List Document}
    (h : Opens s settings files documents) (h' : Opens s settings files others) :
    documents = others :=
  List.right_unique_forall₂' (fun _ _ _ hd he => Except.ok.inj (hd.symm.trans he)) h h'

theorem Finishes.unique {documents others : List Document} (h : Finishes s invocation documents)
    (hothers : Finishes s invocation others) : documents = others := by
  obtain ⟨files, opened, finals, w, hfiles, hopened, hsucceeds, rfl⟩ := h
  obtain ⟨_, opened', finals', w', hsame, hopened', hsucceeds', rfl⟩ := hothers
  cases hfiles.symm.trans hsame
  cases hopened.unique hopened'
  rw [(hsucceeds.unique hsucceeds').1]

end Spec

/-- What a disk becomes when documents are saved to it that were read before: what the last one saved
at a location leaves there stays there. -/
structure Saves (before : Disk) (documents : List Document) (disk after : Disk) : Prop where
  written : ∀ done d rest, documents = done ++ d :: rest →
    ∃ location, before.locate d.path = .ok location ∧
      before.root.contentAt? location = some (Bytes.ofText d.stored) ∧
      ((∀ e ∈ rest, before.locate e.path ≠ .ok location) →
        after.root.contentAt? location = some (Bytes.ofText d.text))
  kept : ∀ location, (∀ d ∈ documents, before.locate d.path ≠ .ok location) →
    after.root.look location = disk.root.look location

theorem Saves.nil (before disk : Disk) : Saves before [] disk disk := ⟨by simp, fun _ _ => rfl⟩

end Run

/-- A formatter that counts how often it was started, and writes the number behind the text. -/
def counted (w : World) (launch : Launch) : Child where
  look _ := .ok (some (.code 0))
  elapsed k := k * pollInterval
  slept _ := Nat.le_refl _
  complaint := []
  content := .ok (Bytes.ofText (launch.content ++ Numeral.ofNat w.turn))
  disk := w.disk

end LogProbe
