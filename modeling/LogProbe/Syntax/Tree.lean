import LogProbe.Failure
import LogProbe.Syntax.Kind
import LogProbe.Syntax.Parse

/-! Trees of statements and expressions: the named nodes of a parse, comments left out, numbered in
preorder. A `Place` is a node together with the nodes above it. -/
namespace LogProbe

/-- What is known of a node. Its span ends with its last token that is no comment, and `fullStart`
is where the token before it ends. -/
structure Label where
  index : Nat
  kind : Kind
  field : Option Field
  fullStart : Nat
  start : Nat
  stop : Nat
  firstTokenEnd : Nat
  deriving DecidableEq, Repr

inductive Node where
  | node (label : Label) (children : List Node)

namespace Node

def label : Node → Label
  | node l _ => l

def children : Node → List Node
  | node _ cs => cs

def kind (n : Node) : Kind := n.label.kind

def field (n : Node) : Option Field := n.label.field

def text? (source : Text) (n : Node) : Option Text := source.slice? n.label.start n.label.stop

def child? (n : Node) (field : Field) : Option Node :=
  n.children.find? (·.field == some field)

mutual
/-- Number of nodes. -/
def size : Node → Nat
  | node _ cs => 1 + sizeAll cs

def sizeAll : List Node → Nat
  | [] => 0
  | c :: cs => size c + sizeAll cs
end

mutual
/-- The node of a parser's node with the given number. `outer` is the full start of its parent and
`before` the end of the child before it. -/
def ofParse (index outer : Nat) (before : Option Nat) : ParseNode → Node
  | .node t cs =>
    let fullStart := (t.previous.getD before).getD outer
    node
      { index, fullStart
        kind := Kind.ofGrammar t.kind
        field := t.field.bind Field.ofGrammar?
        start := t.start
        stop := (ParseNode.node t cs).contentEnd
        firstTokenEnd := (ParseNode.node t cs).firstTokenEnd }
      (ofChildren (index + 1) fullStart none cs)

def ofChildren (next outer : Nat) (before : Option Nat) : List ParseNode → List Node
  | [] => []
  | c :: cs =>
    if c.isStructural then
      let child := ofParse next outer before c
      child :: ofChildren (next + child.size) outer (some c.token.stop) cs
    else ofChildren next outer (some c.token.stop) cs
end

/-- `console.log(...)`, told by the text of its names alone. -/
def isLogCall (source : Text) (n : Node) : Bool :=
  n.kind == .callExpression &&
    (n.child? .function).any fun callee =>
      callee.kind == .memberExpression &&
        (callee.child? .object).any (fun object =>
          object.kind == .identifier && object.text? source == some "console".toList) &&
        (callee.child? .property).any (fun property =>
          property.kind == .propertyIdentifier && property.text? source == some "log".toList)

end Node

structure Tree where
  root : Node
  source : Text
  hasErrors : Bool

/-- A node and its ancestors, the parent first. -/
structure Place where
  node : Node
  above : List Node

namespace Place

def kind (p : Place) : Kind := p.node.kind

def field (p : Place) : Option Field := p.node.field

def label (p : Place) : Label := p.node.label

def text? (source : Text) (p : Place) : Option Text := p.node.text? source

def parent? (p : Place) : Option Place :=
  match p.above with
  | [] => none
  | parent :: above => some ⟨parent, above⟩

def parentKind? (p : Place) : Option Kind := p.parent?.map (·.kind)

def below (p : Place) (child : Node) : Place := ⟨child, p.node :: p.above⟩

@[simp] theorem parent?_below (p : Place) (child : Node) : (p.below child).parent? = some p := rfl

def children (p : Place) : List Place := p.node.children.map p.below

def child? (p : Place) (field : Field) : Option Place := (p.node.child? field).map p.below

/-- A member of a parameter list, or the bare parameter of an arrow function. -/
def isParameter (p : Place) : Bool :=
  p.parentKind? == some .formalParameters ||
    (p.parentKind? == some .arrowFunction && p.field == some .parameter)

/-- The function that declares a parameter. -/
def parameterOwner? (p : Place) : Option Place := do
  let parent ← p.parent?
  let owner ← if parent.kind == .formalParameters then parent.parent? else some parent
  if owner.kind.isFunctionLike then some owner else none

mutual
/-- A node and all below it, in preorder. -/
def preorder (above : List Node) : Node → List Place
  | .node l cs => ⟨.node l cs, above⟩ :: preorderAll (.node l cs :: above) cs

def preorderAll (above : List Node) : List Node → List Place
  | [] => []
  | c :: cs => preorder above c ++ preorderAll above cs
end

end Place

namespace Tree

/-- The tree of a parse. The root spans the whole text. -/
def ofParse (source : Text) (parse : Parse) : Tree where
  root :=
    .node
      { index := 0
        kind := Kind.ofGrammar parse.root.token.kind
        field := none
        fullStart := 0
        start := 0
        stop := source.size
        firstTokenEnd := parse.root.firstTokenEnd }
      (Node.ofChildren 1 0 none parse.root.children)
  source := source
  hasErrors := parse.hasErrors

def rootPlace (t : Tree) : Place := ⟨t.root, []⟩

def places (t : Tree) : List Place := Place.preorder [] t.root

end Tree

/-- The tree of a document, unless its language is no dialect or the parser gives up. -/
def Parser.document? (parser : Parser) (languageId : String) (source : Text) :
    Except Failure (Option Tree) :=
  match Dialect.ofLanguageId? languageId with
  | none => .ok none
  | some dialect =>
    match parser dialect.grammar source with
    | .error cause => .error (.grammar cause)
    | .ok parse => .ok (parse.map (Tree.ofParse source))

end LogProbe
