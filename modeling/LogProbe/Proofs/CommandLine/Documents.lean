import LogProbe.CommandLine.Run
import LogProbe.Proofs.CommandLine.FileTree
import Mathlib.Algebra.GroupWithZero.Nat
import Mathlib.Data.List.Forall2

/-! Documents as a run opens and edits them, one after the other. What a command does with a document
depends on the disk and on the documents before it only through formatters, and these leave the disk
as it is. -/
namespace LogProbe

namespace Command
variable {σ τ ω α : Type} {perform : Request → σ → σ × Option Failure}

/-- A command succeeds on one document after another, each in what those before it have left. The
documents in the end come with what the command reports of them. -/
inductive Succeeds (run : ω × σ → (ω × σ) × Except Failure α) : ω → List σ → List (σ × α) → ω → Prop
  | nil (w : ω) : Succeeds run w [] [] w
  | cons {w w' last : ω} {s s' : σ} {a : α} {rest : List σ} {finals : List (σ × α)}
      (first : run (w, s) = ((w', s'), .ok a)) (others : Succeeds run w' rest finals last) :
      Succeeds run w (s :: rest) ((s', a) :: finals) last

section Succeeds
variable {run : ω × σ → (ω × σ) × Except Failure α} {w last : ω} {all : List σ}
  {finals : List (σ × α)}

/-- Documents succeed in one way only. -/
theorem Succeeds.unique {others : List (σ × α)} {last' : ω}
    (h : Succeeds run w all finals last) (h' : Succeeds run w all others last') :
    finals = others ∧ last = last' := by
  induction h generalizing others with
  | nil =>
    cases h'
    exact ⟨rfl, rfl⟩
  | cons first _ ih =>
    cases h' with
    | cons first' rest' =>
      rw [first] at first'
      cases first'
      obtain ⟨rfl, rfl⟩ := ih rest'
      exact ⟨rfl, rfl⟩

/-- A property of a document before and after a command holds of all of them. -/
theorem Succeeds.forall₂ {P : σ → σ × α → Prop} (hruns : Succeeds run w all finals last)
    (h : ∀ w w' s s' a, run (w, s) = ((w', s'), .ok a) → P s (s', a)) :
    List.Forall₂ P all finals := by
  induction hruns with
  | nil => exact .nil
  | cons first _ ih => exact .cons (h _ _ _ _ _ first) ih

/-- What a command makes of documents, another one makes of them that reports something else. -/
theorem Succeeds.map {β : Type} {other : ω × σ → (ω × σ) × Except Failure β} {f : α → β}
    (h : ∀ p, other p = (run p).map id (·.map f)) (hruns : Succeeds run w all finals last) :
    Succeeds other w all (finals.map (Prod.map id f)) last := by
  induction hruns with
  | nil => exact .nil _
  | cons first _ ih => exact .cons (by rw [h, first]; rfl) ih

end Succeeds

end Command

namespace FormatterCall

end FormatterCall

namespace Document
variable {launcher : Launcher} {formatter : Option FormatterCall} {parser : Parser} {disk : Disk}

/-- What requests keep of a document: the path and what was read. -/
def Keeps (d : Document) (p : World × Document) : Prop :=
  p.2.path = d.path ∧ p.2.stored = d.stored

end Document

section Lists
variable {α β ε : Type}

end Lists

namespace Run
variable {s : Surroundings} {settings : Settings} {path : Bytes} {d : Document}

end Run
end LogProbe
