import LogProbe.Edit.Batch
import LogProbe.Syntax.Tree

/-! The place of a log: next to a statement, at the start of a block, or in a new block around a
body that has none. -/
namespace LogProbe

inductive Placement where
  /-- In front of a node, which then goes on after `lead`. -/
  | before (place : Place) (lead : Text)
  | after (place : Place)
  /-- As the first statement of a block. -/
  | inside (place : Place)

namespace Placement

/-- An expression that gives a function its value has to be returned from the new block. -/
def returnLead : Text := "return ".toList

def ofFunction? (here : Place) : Option Placement :=
  if here.kind.isFunctionDeclaration then (here.child? .body).map inside else none

def ofArrowValue? (here parent : Place) : Option Placement :=
  if parent.kind == .arrowFunction && here.field == some .body && here.kind != .statementBlock
  then some (before here returnLead)
  else none

def ofParameter? (here : Place) : Option Placement :=
  if here.isParameter then do
    let owner ← here.parameterOwner?
    let body ← owner.child? .body
    return if body.kind == .statementBlock then inside body else before body returnLead
  else none

def ofLoopBody? (loop : Place) : Option Placement :=
  (loop.child? .body).map fun body =>
    if body.kind.isBlockLike then inside body else before body []

/-- A condition is logged before its statement, what a loop computes in every round inside it. -/
def ofControl? (here parent : Place) : Option Placement :=
  match parent.kind with
  | .ifStatement => if here.field == some .condition then some (before parent []) else none
  | .whileStatement | .doStatement | .forStatement => ofLoopBody? parent
  | .forInStatement =>
    match here.field with
    | some .left => ofLoopBody? parent
    | some .right => some (before parent [])
    | _ => none
  | _ => none

def liftFrom : Node → List Node → Place
  | n, [] => ⟨n, []⟩
  | n, parent :: above =>
    if parent.kind == .exportStatement then liftFrom parent above else ⟨n, parent :: above⟩

/-- An exported declaration and its export are one statement. -/
def liftExport (p : Place) : Place := liftFrom p.node p.above

def ofStatement? (here : Place) : Option Placement :=
  if here.kind == .returnStatement then some (before here [])
  else if here.kind.isStatement then some (after (liftExport here))
  else none

/-- The placement that the rules give for one node of the way up. -/
def rule? (here parent : Place) : Option Placement :=
  ofFunction? here <|> ofArrowValue? here parent <|> ofParameter? here <|>
    ofControl? here parent <|> ofStatement? here

def searchFrom? : Node → List Node → Option Placement
  | _, [] => none
  | n, parent :: above =>
    rule? ⟨n, parent :: above⟩ ⟨parent, above⟩ <|> searchFrom? parent above

/-- Goes up from the target to the first node for which a rule gives a placement. -/
def ofTarget? (target : Place) : Option Placement := searchFrom? target.node target.above

def standsInBlock (p : Place) : Bool := p.parentKind?.any Kind.isBlockLike

/-- A new block in place of a node and the blanks before it. -/
def block (p : Place) (content : Text) : Edit :=
  ⟨p.label.fullStart, p.label.stop, " \x7b\n".toList ++ content ++ "\n\x7d".toList⟩

/-- The edit that puts a log at its place. -/
def render? (source log : Text) : Placement → Option Edit
  | inside p => some (.insertion p.label.firstTokenEnd ('\n' :: log))
  | before p lead =>
    if standsInBlock p then some (.insertion p.label.start (log ++ ['\n'] ++ lead))
    else (p.text? source).map fun text => block p (log ++ ['\n'] ++ lead ++ text)
  | after p =>
    if standsInBlock p then some (.insertion p.label.stop ('\n' :: log))
    else (p.text? source).map fun text => block p (text ++ ['\n'] ++ log)

end Placement
end LogProbe
