import LogProbe.Syntax.Dialect

/-! What a parser returns: a tree of all nodes of a text, comments and punctuation included. Such
a tree is handed over as a flat table. -/
namespace LogProbe

/-- A node of the parser. `previous` is set where the parser names another preceding sibling than
the child before it: the end of that sibling, or its absence. -/
structure Token where
  kind : String
  named : Bool
  field : Option String
  start : Nat
  stop : Nat
  previous : Option (Option Nat)
  deriving DecidableEq, Repr

inductive ParseNode where
  | node (token : Token) (children : List ParseNode)

namespace ParseNode

def token : ParseNode → Token
  | node t _ => t

def children : ParseNode → List ParseNode
  | node _ cs => cs

def isComment (n : ParseNode) : Bool := n.token.kind == "comment"

/-- Nodes that statements and expressions are made of. -/
def isStructural (n : ParseNode) : Bool := n.token.named && !n.isComment

def isContent (n : ParseNode) : Bool := !n.isComment && n.token.start < n.token.stop

mutual
/-- The end of the last token with content. A statement that ends without a semicolon runs on over
the comment behind it, which is left out here. -/
def contentEnd : ParseNode → Nat
  | node t cs => (lastContentEnd? cs).getD t.stop

def lastContentEnd? : List ParseNode → Option Nat
  | [] => none
  | c :: cs =>
    match lastContentEnd? cs with
    | some stop => some stop
    | none => if c.isContent then some c.contentEnd else none
end

def firstTokenEnd : ParseNode → Nat
  | node t [] => t.stop
  | node _ (c :: _) => c.firstTokenEnd

end ParseNode

/-- The answer of a parser for one text. -/
structure Parse where
  root : ParseNode
  hasErrors : Bool

/-- A parser may refuse a grammar, with a message, and it may give up on a text. -/
abbrev Parser := Grammar → Text → Except Text (Option Parse)

/-- A row of a table of nodes in preorder: the row of the parent, and the node. -/
structure Row where
  parent : Option Nat
  token : Token

namespace Row

/-- Adds row `i` in front of the trees of the rows after it: those that name it as their parent
become its children. -/
def graft (i : Nat) (row : Row) (forest : List (Option Nat × ParseNode)) :
    List (Option Nat × ParseNode) :=
  let (own, others) := forest.span (·.1 == some i)
  (row.parent, .node row.token (own.map (·.2))) :: others

def forest (next : Nat) : List Row → List (Option Nat × ParseNode)
  | [] => []
  | row :: rows => graft next row (forest (next + 1) rows)

/-- The tree of a table, if the table has one root and the rest of it in preorder. -/
def tree? (rows : List Row) : Option ParseNode :=
  match forest 0 rows with
  | [(none, root)] => some root
  | _ => none

end Row

/-- A parse in flat form, with the text that it is of. -/
structure ParseTable where
  grammar : Grammar
  text : Text
  hasErrors : Bool
  rows : List Row

namespace ParseTable

def parse? (t : ParseTable) : Option Parse :=
  (Row.tree? t.rows).map fun root => { root, hasErrors := t.hasErrors }

end ParseTable

/-- The parser that knows the texts of the given tables alone. -/
def Parser.ofTables (tables : List ParseTable) : Parser := fun grammar text =>
  .ok ((tables.find? fun t => t.grammar == grammar && t.text == text).bind ParseTable.parse?)

end LogProbe
