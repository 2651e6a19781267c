import LogProbe.Log.Caption
import LogProbe.Syntax.Tree

/-! What a log says of its target: a caption, and the expression whose value it echoes. -/
namespace LogProbe

namespace Node

mutual
/-- What a parameter binds, without its type annotation and default value. -/
def binding : Node → Node
  | .node l cs =>
    let inner? :=
      match l.kind with
      | .requiredParameter | .optionalParameter =>
        bindingAmong? (·.field == some Field.pattern) cs <|>
          bindingAmong? (·.kind == Kind.identifier) cs
      | .assignmentPattern => bindingAmong? (·.field == some Field.left) cs
      | _ => none
    inner?.getD (.node l cs)

def bindingAmong? (p : Node → Bool) : List Node → Option Node
  | [] => none
  | c :: cs => if p c then some (binding c) else bindingAmong? p cs
end

mutual
/-- The stretches of a pattern that give default values: each runs from the end of what is bound
to the end of the assignment. Within a default nothing is looked for. -/
def defaultSpans : Node → List (Nat × Nat)
  | .node l cs =>
    let inside? :=
      match l.kind with
      | .assignmentPattern | .objectAssignmentPattern => spansOfBound? l.stop cs
      | _ => none
    inside?.getD (defaultSpansAll cs)

def spansOfBound? (stop : Nat) : List Node → Option (List (Nat × Nat))
  | [] => none
  | c :: cs =>
    if c.field == some .left then some ((c.label.stop, stop) :: defaultSpans c)
    else spansOfBound? stop cs

def defaultSpansAll : List Node → List (Nat × Nat)
  | [] => []
  | c :: cs => defaultSpans c ++ defaultSpansAll cs
end

/-- The source from one offset to another without the given stretches, which are in order. -/
def copyAround? (source : Text) (start stop : Nat) : List (Nat × Nat) → Option Text
  | [] => source.slice? start stop
  | (cutStart, cutStop) :: cuts => do
    let kept ← source.slice? start cutStart
    let rest ← copyAround? source cutStop stop cuts
    return kept ++ rest

def spanPrecedes (a b : Nat × Nat) : Bool := a.1 < b.1 || (a.1 == b.1 && a.2 ≤ b.2)

/-- A binding read back as a value: the pattern without its default values. -/
def withoutDefaults? (source : Text) (n : Node) : Option Text :=
  copyAround? source n.label.start n.label.stop (n.defaultSpans.mergeSort spanPrecedes)

end Node

structure Echo where
  caption : Text
  expression : Option Text
  deriving DecidableEq, Repr

namespace Echo

def ofSource (t : Text) : Echo := ⟨Caption.ofText t, some t⟩

def statement (e : Echo) : Text := logStatement e.caption e.expression

/-- The name of a declared function, which has no value to echo where its log stands. -/
def functionName? (target : Place) : Option Node :=
  if target.kind.isFunctionDeclaration then target.node.child? .name else none

/-- The key and the value of the property that the target is a part of, unless the key is
computed. -/
def keyValue? (target : Place) : Option (Node × Node) := do
  let parent ← target.parent?
  if parent.kind != .pair then none
  else
    let key ← parent.node.child? .key
    let value ← parent.node.child? .value
    if key.kind == .computedPropertyName then none else some (key, value)

def isDeclaredName (target : Place) : Bool :=
  target.field == some .name && target.parentKind? == some .variableDeclarator

/-- A binding is named as it is written and echoed without its default values. -/
def ofBinding? (source : Text) (binding : Node) : Option Echo := do
  let text ← binding.text? source
  let value ← binding.withoutDefaults? source
  return ⟨Caption.ofText text, some value⟩

/-- The echo of a target. A statement echoes its expression, never its semicolon. -/
def ofTarget? (source : Text) (target : Place) : Option Echo :=
  match functionName? target with
  | some name => (name.text? source).map fun text => ⟨Caption.escape text, none⟩
  | none =>
    match keyValue? target with
    | some (key, value) => do
      let caption ← key.text? source
      let expression ← value.text? source
      return ⟨Caption.ofText caption, some expression⟩
    | none =>
      if target.kind == .expressionStatement then
        ((target.node.children.head?.getD target.node).text? source).map ofSource
      else if isDeclaredName target then ofBinding? source target.node
      else if target.isParameter then ofBinding? source target.node.binding
      else (target.text? source).map ofSource

end Echo
end LogProbe
