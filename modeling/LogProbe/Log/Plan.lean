import LogProbe.Edit.Indent
import LogProbe.Edit.Selection
import LogProbe.Edit.Snippet
import LogProbe.Log.Echo
import LogProbe.Log.Placement
import LogProbe.Log.Target

/-! The plan of an insertion: for each selection a log next to its target, or a snippet where the
selection stands in a list of statements. -/
namespace LogProbe

inductive Insertion where
  | edit (edit : Edit)
  | snippet (site : Selection) (snippet : Snippet)
  deriving DecidableEq, Repr

namespace Insertion

def logSnippet : Snippet := ⟨"console.log($1)$0".toList⟩

/-- The change that an insertion makes to the text. -/
def footprint : Insertion → Edit
  | edit e => e
  | snippet site s => ⟨site.start, site.stop, s.plainText⟩

def isSnippet : Insertion → Bool
  | edit _ => false
  | snippet _ _ => true

/-- What one selection asks for, if it has a target and the target has a place for a log. -/
def propose? (tree : Tree) (selection : Selection) : Except Failure (Option Insertion) := do
  let place := (tree.locate? selection.start selection.stop).getD tree.rootPlace
  if place.kind.isBlockLike then return some (snippet selection logSnippet)
  let some target ← place.expand | return none
  let some placement := Placement.ofTarget? target | return none
  let echo ← orBadCut (Echo.ofTarget? tree.source target)
  let change ← orBadCut (placement.render? tree.source echo.statement)
  return some (edit change)

/-- Adds an insertion unless it conflicts with one already planned. -/
def add (plan : List Insertion) (insertion : Insertion) : List Insertion :=
  if plan.any (·.footprint.conflictsWith insertion.footprint) then plan else plan ++ [insertion]

def addProposal (tree : Tree) (plan : List Insertion) (selection : Selection) :
    Except Failure (List Insertion) := do
  match ← propose? tree selection with
  | some insertion => return add plan insertion
  | none => return plan

/-- The plan for all selections, those at the bottom of the text first. -/
def plan (tree : Tree) (selections : List Selection) : Except Failure (List Insertion) :=
  (Selection.bottomFirst selections).foldlM (addProposal tree) []

end Insertion
end LogProbe
