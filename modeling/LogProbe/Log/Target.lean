import LogProbe.Failure
import LogProbe.Syntax.Tree

/-! The target of a selection: the innermost node around it, grown into something worth logging. -/
namespace LogProbe

namespace Node

mutual
/-- The innermost node below `n` that contains the range; at each level the first that does. -/
def innermost? (start stop : Nat) (above : List Node) : Node → Option Place
  | .node l cs => innermostAmong? start stop (.node l cs :: above) cs

def innermostAmong? (start stop : Nat) (above : List Node) : List Node → Option Place
  | [] => none
  | c :: cs =>
    if c.label.start ≤ start && stop ≤ c.label.stop then
      some ((innermost? start stop above c).getD ⟨c, above⟩)
    else innermostAmong? start stop above cs
end

end Node

/-- The innermost place around a range, if a node below the root contains it. -/
def Tree.locate? (t : Tree) (start stop : Nat) : Option Place :=
  t.root.innermost? start stop []

namespace Target

/-- One step of growing: the search ends, or goes to the parent, or to a place below. -/
inductive Step where
  | halt (target : Option Place)
  | climb
  | descend (inner : Place)

/-- An expression stands for more than itself as a property, a callee or a constructor. -/
def isPartOf (here parent : Place) : Bool :=
  (parent.kind == .memberExpression && here.field == some .property) ||
    (parent.kind == .callExpression && here.field == some .function) ||
    (parent.kind == .newExpression && here.field == some .constructor)

def declaredName? (declarator : Place) : Option Place := declarator.child? .name

/-- The rules for what is neither a function's name nor a condition in parentheses. -/
def settle (here parent : Place) : Step :=
  if here.kind.isExpression then
    if isPartOf here parent then .climb else .halt (some here)
  else if here.isParameter then .halt (some here)
  else if here.kind == .variableDeclarator then .halt (declaredName? here)
  else if here.kind.isDeclarationList then
    .halt ((here.children.find? (·.kind == .variableDeclarator)).bind declaredName?)
  else if here.kind == .returnStatement then .halt here.children.head?
  else if here.kind.isStatement then
    .halt (if here.kind == .expressionStatement then some here else none)
  else .climb

/-- The parentheses around a condition belong to its statement. -/
def condition? (here parent : Place) : Option Place :=
  if here.kind == .parenthesizedExpression && parent.kind.hasParenthesizedCondition then
    here.children.head?
  else none

def step (here : Place) : Step :=
  match here.parent? with
  | none => .halt none
  | some parent =>
    if here.kind == .identifier && parent.kind.isFunctionDeclaration then .climb
    else if here.kind.isFunctionDeclaration then .halt (some here)
    else if here.kind.isLiteral && parent.kind == .subscriptExpression
        && here.field == some .index then .climb
    else
      match condition? here parent with
      | some inner => .descend inner
      | none => settle here parent

/-- Grows a node below the nodes `above`. A step down that is followed by a step up goes on
forever. -/
def expandFrom : Node → List Node → Except Failure (Option Place)
  | _, [] => .ok none
  | n, parent :: above =>
    match step ⟨n, parent :: above⟩ with
    | .halt target => .ok target
    | .climb => expandFrom parent above
    | .descend inner =>
      match step inner with
      | .halt target => .ok target
      | _ => .error .endless

end Target

/-- Grows a place into the expression or statement worth logging, if there is one. -/
def Place.expand (p : Place) : Except Failure (Option Place) := Target.expandFrom p.node p.above

end LogProbe
