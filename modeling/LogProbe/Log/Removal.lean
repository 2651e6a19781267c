import LogProbe.Edit.Batch
import LogProbe.Syntax.Tree
import LogProbe.Text.Line

/-! The removal of every log from a text. A log that stands as a statement goes with its line;
elsewhere something harmless takes its place. -/
namespace LogProbe

namespace Node

mutual
/-- The outermost log calls in preorder. A log within another one goes away with it. -/
def logCalls (source : Text) (above : List Node) : Node → List Place
  | .node l cs =>
    if isLogCall source (.node l cs) then [⟨.node l cs, above⟩]
    else logCallsAll source (.node l cs :: above) cs

def logCallsAll (source : Text) (above : List Node) : List Node → List Place
  | [] => []
  | c :: cs => logCalls source above c ++ logCallsAll source above cs
end

end Node

def Tree.logCalls (t : Tree) : List Place := t.root.logCalls t.source []

namespace Removal

/-- How the place of a removed log is cleaned up. -/
inductive Site where
  | statement (place : Place)
  | emptyBlock
  | neutral
  | neutralObject

/-- A statement in a list of statements is dropped. A body of its own becomes an empty block, a
value becomes `void 0`, in parentheses where a member of it is read. -/
def site (call : Place) : Site :=
  match call.parent? with
  | none => .neutral
  | some parent =>
    let outer? := if parent.kind == .expressionStatement then parent.parentKind? else none
    if outer? == some .statementBlock || outer? == some .program then .statement parent
    else if outer? == some .switchCase || outer? == some .switchDefault ||
        (parent.kind == .arrowFunction && call.field == some .body) then .emptyBlock
    else if parent.kind == .memberExpression && call.field == some .object then .neutralObject
    else .neutral

/-- Whole lines if the statement is alone on them, otherwise just its span. -/
def ofStatement? (source : Text) (statement : Label) : Option Edit := do
  let first ← LineView.at? source statement.start
  let last ← LineView.at? source statement.stop
  if first.contentStart == statement.start && last.tail.dropReturn.all isPadding then
    return ⟨first.start, last.stopWithBreak, []⟩
  else return ⟨statement.start, statement.stop, []⟩

def edit? (source : Text) (call : Place) : Option Edit :=
  let replaceBy (text : String) : Option Edit :=
    some ⟨call.label.start, call.label.stop, text.toList⟩
  match site call with
  | .statement place => ofStatement? source place.label
  | .emptyBlock => replaceBy "\x7b\x7d"
  | .neutral => replaceBy "void 0"
  | .neutralObject => replaceBy "(void 0)"

/-- One edit for each outermost log, those at the bottom of the text first. -/
def plan? (tree : Tree) : Option (List Edit) :=
  (tree.logCalls.mergeSort fun a b => b.label.fullStart ≤ a.label.fullStart).mapM
    (edit? tree.source)

end Removal
end LogProbe
