import LogProbe.Proofs.Syntax.Arena

/-! How a tree is built without recursion. Nodes still to visit wait on a stack; the one on top gets
the next number, becomes a child of the node that put it there and gives way to its own children.
What is built in this way are the nodes of the tree in preorder. -/
namespace LogProbe

/-- A node of an arena, in which nodes are numbers. -/
structure ArenaNode where
  label : Label
  parent : Option Nat
  children : List Nat

/-- A node of the parser still to visit: with the number and the full start of its parent, unless it
is the root, and the end of the sibling before it. -/
structure Pending where
  node : ParseNode
  parent : Option Nat := none
  outer : Nat := 0
  before : Option Nat := none

namespace ParseNode

theorem sizeAll_append (cs ds : List ParseNode) : sizeAll (cs ++ ds) = sizeAll cs + sizeAll ds := by
  induction cs with
  | nil => rw [List.nil_append, sizeAll, Nat.zero_add]
  | cons c cs ih => rw [List.cons_append, sizeAll, sizeAll, ih, Nat.add_assoc]

end ParseNode

namespace Pending

/-- The label of a node with the given number. The root spans the whole text. -/
def label (source : Text) (index : Nat) (p : Pending) : Label :=
  let token := p.node.token
  match p.parent with
  | none =>
    { index
      kind := Kind.ofGrammar token.kind
      field := none
      fullStart := 0
      start := 0
      stop := source.size
      firstTokenEnd := p.node.firstTokenEnd }
  | some _ =>
    { index
      kind := Kind.ofGrammar token.kind
      field := token.field.bind Field.ofGrammar?
      fullStart := (token.previous.getD p.before).getD p.outer
      start := token.start
      stop := p.node.contentEnd
      firstTokenEnd := p.node.firstTokenEnd }

/-- The children of a node that are to visit. -/
def below (index fullStart : Nat) (before : Option Nat) : List ParseNode → List Pending
  | [] => []
  | c :: cs =>
    let rest := below index fullStart (some c.token.stop) cs
    if c.isStructural then ⟨c, some index, fullStart, before⟩ :: rest else rest

theorem sizeAll_below_le (index fullStart : Nat) (before : Option Nat) (cs : List ParseNode) :
    ParseNode.sizeAll ((below index fullStart before cs).map (·.node)) ≤ ParseNode.sizeAll cs := by
  induction cs generalizing before with
  | nil => exact Nat.le_refl 0
  | cons c cs ih =>
    have hrest := ih (some c.token.stop)
    rw [below, ParseNode.sizeAll]
    split
    · rw [List.map_cons, ParseNode.sizeAll]
      exact Nat.add_le_add_left hrest _
    · exact Nat.le_add_left_of_le hrest

end Pending

namespace ArenaNode

/-- Adds a child to its parent. -/
def addChild (parent : Option Nat) (child : Nat) (arena : List ArenaNode) : List ArenaNode :=
  match parent with
  | none => arena
  | some i => arena.modify i fun n => { n with children := n.children ++ [child] }

/-- Builds an arena from what waits on a stack. -/
def build (source : Text) : List Pending → List ArenaNode → List ArenaNode
  | [], arena => arena
  | p :: stack, arena =>
    let label := p.label source arena.length
    build source
      (Pending.below arena.length label.fullStart none p.node.children ++ stack)
      (addChild p.parent arena.length (arena ++ [⟨label, p.parent, []⟩]))
termination_by stack => ParseNode.sizeAll (stack.map (·.node))
decreasing_by
  have hbelow := Pending.sizeAll_below_le arena.length
    (p.label source arena.length).fullStart none p.node.children
  obtain ⟨⟨t, cs⟩, parent, outer, before⟩ := p
  simp only [List.map_append, List.map_cons, ParseNode.sizeAll_append, ParseNode.sizeAll,
    ParseNode.size, ParseNode.children] at hbelow ⊢
  omega

end ArenaNode

namespace Pending
variable {source : Text}

/-- The node of a tree that comes of a node to visit. -/
def toNode (source : Text) (index : Nat) (p : Pending) : Node :=
  let label := p.label source index
  .node label (Node.ofChildren (index + 1) label.fullStart none p.node.children)

theorem index_label (source : Text) (index : Nat) (p : Pending) :
    (p.label source index).index = index := by
  rw [label]
  split <;> rfl

theorem toNode_of_parent (source : Text) (index parent outer : Nat) (before : Option Nat)
    (n : ParseNode) :
    toNode source index ⟨n, some parent, outer, before⟩ = Node.ofParse index outer before n := by
  cases n
  rfl

/-- The nodes that come of a stack, with the numbers of their parents. The first gets the number
`next`, and each of the others the one behind the nodes below the node before it. -/
def nodes (source : Text) : Nat → List Pending → List (Option Nat × Node)
  | _, [] => []
  | next, p :: stack =>
    let n := p.toNode source next
    (p.parent, n) :: nodes source (next + n.size) stack

theorem nodes_append (next : Nat) (stack rest : List Pending) :
    nodes source next (stack ++ rest) = nodes source next stack ++
      nodes source (next + Node.sizeAll ((nodes source next stack).map (·.2))) rest := by
  induction stack generalizing next with
  | nil => rfl
  | cons p stack ih =>
    rw [List.cons_append, nodes, nodes, ih, List.cons_append, List.map_cons, Node.sizeAll,
      Nat.add_assoc]

theorem nodes_below (next index fullStart : Nat) (before : Option Nat) (cs : List ParseNode) :
    nodes source next (below index fullStart before cs) =
      (Node.ofChildren next fullStart before cs).map (some index, ·) := by
  induction cs generalizing next before with
  | nil => rfl
  | cons c cs ih =>
    rw [below, Node.ofChildren]
    split
    · rw [nodes, toNode_of_parent, ih]
      rfl
    · exact ih next (some c.token.stop)

/-- On top of a stack, the children of a node take the numbers behind its own. -/
theorem nodes_children (next : Nat) (p : Pending) (stack : List Pending) :
    nodes source (next + 1)
        (below next (p.label source next).fullStart none p.node.children ++ stack) =
      (p.toNode source next).children.map (some next, ·) ++
        nodes source (next + (p.toNode source next).size) stack := by
  have hsize : (p.toNode source next).size =
      1 + Node.sizeAll (p.toNode source next).children := Node.size_eq _
  have hsecond : (Prod.snd ∘ fun c : Node => (some next, c)) = id := rfl
  rw [nodes_append, nodes_below, List.map_map, hsecond, List.map_id, hsize, ← Nat.add_assoc]
  rfl

theorem parent_of_mem_nodes {next : Nat} {stack : List Pending} {entry : Option Nat × Node}
    (h : entry ∈ nodes source next stack) : ∃ p ∈ stack, p.parent = entry.1 := by
  induction stack generalizing next with
  | nil => cases h
  | cons p stack ih =>
    rcases List.mem_cons.mp h with rfl | h
    · exact ⟨p, List.mem_cons_self, rfl⟩
    · obtain ⟨q, hq, hparent⟩ := ih h
      exact ⟨q, List.mem_cons_of_mem _ hq, hparent⟩

theorem parent_of_mem_below {index fullStart : Nat} {before : Option Nat} {cs : List ParseNode}
    {p : Pending} (h : p ∈ below index fullStart before cs) : p.parent = some index := by
  induction cs generalizing before with
  | nil => cases h
  | cons c cs ih =>
    rw [below] at h
    split at h
    · rcases List.mem_cons.mp h with rfl | h
      · rfl
      · exact ih h
    · exact ih h

end Pending

namespace ArenaNode
variable {arena rest : List ArenaNode} {parent : Option Nat} {child : Nat}

theorem length_addChild (parent : Option Nat) (child : Nat) (arena : List ArenaNode) :
    (addChild parent child arena).length = arena.length := by
  cases parent with
  | none => rfl
  | some i => exact List.length_modify ..

theorem modify_append {α : Type} {f : α → α} {i : Nat} {l : List α} (h : i < l.length)
    (rest : List α) : (l ++ rest).modify i f = l.modify i f ++ rest := by
  induction l generalizing i with
  | nil => cases h
  | cons a l ih =>
    cases i with
    | zero => rfl
    | succ i => simpa using ih (Nat.lt_of_succ_lt_succ h)

/-- What stands behind the parent stays. -/
theorem addChild_append (h : ∀ i, parent = some i → i < arena.length) (rest : List ArenaNode) :
    addChild parent child (arena ++ rest) = addChild parent child arena ++ rest := by
  cases parent with
  | none => rfl
  | some i => exact modify_append (h i rfl) rest

theorem addChild_last (label : Label) (parent : Option Nat) (children : List Nat) :
    addChild (some arena.length) child (arena ++ [⟨label, parent, children⟩]) =
      arena ++ [⟨label, parent, children ++ [child]⟩] := by
  rw [addChild]
  induction arena with
  | nil => rfl
  | cons n arena ih => simpa using ih

/-- Adds nodes to their parents. -/
def addChildren : List (Option Nat × Node) → List ArenaNode → List ArenaNode
  | [], arena => arena
  | (parent, n) :: nodes, arena => addChildren nodes (addChild parent n.label.index arena)

theorem addChildren_append (nodes others : List (Option Nat × Node)) (arena : List ArenaNode) :
    addChildren (nodes ++ others) arena = addChildren others (addChildren nodes arena) := by
  induction nodes generalizing arena with
  | nil => rfl
  | cons entry nodes ih => exact ih _

theorem addChildren_front {nodes : List (Option Nat × Node)}
    (h : ∀ entry ∈ nodes, ∀ i, entry.1 = some i → i < arena.length) (rest : List ArenaNode) :
    addChildren nodes (arena ++ rest) = addChildren nodes arena ++ rest := by
  induction nodes generalizing arena with
  | nil => rfl
  | cons entry nodes ih =>
    obtain ⟨parent, n⟩ := entry
    obtain ⟨hfirst, hothers⟩ := List.forall_mem_cons.mp h
    rw [addChildren, addChildren, addChild_append hfirst]
    refine ih ?_
    rw [length_addChild]
    exact hothers

theorem addChildren_last {last : Nat} (h : arena.length = last) (label : Label)
    (parent : Option Nat) (children : List Nat) (nodes : List Node) :
    addChildren (nodes.map (some last, ·)) (arena ++ [⟨label, parent, children⟩]) =
      arena ++ [⟨label, parent, children ++ nodes.map (·.label.index)⟩] := by
  subst h
  induction nodes generalizing children with
  | nil => simp [addChildren]
  | cons n nodes ih =>
    rw [List.map_cons, addChildren, addChild_last, ih]
    simp

mutual
/-- A node and all below it as they stand in an arena, in preorder. -/
def ofNode (parent : Option Nat) : Node → List ArenaNode
  | .node l cs => ⟨l, parent, cs.map (·.label.index)⟩ :: ofNodes (some l.index) cs

def ofNodes (parent : Option Nat) : List Node → List ArenaNode
  | [] => []
  | c :: cs => ofNode parent c ++ ofNodes parent cs
end

theorem ofNodes_eq_flatMap (parent : Option Nat) (cs : List Node) :
    ofNodes parent cs = (cs.map (parent, ·)).flatMap fun entry => ofNode entry.1 entry.2 := by
  induction cs with
  | nil => rfl
  | cons c cs ih => rw [ofNodes, ih, List.map_cons, List.flatMap_cons]

theorem ofNode_toNode (source : Text) (next : Nat) (p : Pending) :
    ofNode p.parent (p.toNode source next) =
      ⟨p.label source next, p.parent, (p.toNode source next).children.map (·.label.index)⟩ ::
        ((p.toNode source next).children.map (some next, ·)).flatMap fun entry =>
          ofNode entry.1 entry.2 := by
  rw [← ofNodes_eq_flatMap, Pending.toNode, ofNode, Pending.index_label]
  rfl

/-- What is built of a stack: its nodes become children of those that are there, and behind these
stand the nodes and all below them. -/
theorem build_eq (source : Text) (stack : List Pending) (arena : List ArenaNode)
    (h : ∀ p ∈ stack, ∀ i, p.parent = some i → i < arena.length) :
    build source stack arena =
      addChildren (Pending.nodes source arena.length stack) arena ++
        (Pending.nodes source arena.length stack).flatMap fun entry => ofNode entry.1 entry.2 := by
  induction stack, arena using build.induct source with
  | case1 arena => simp [build, Pending.nodes, addChildren]
  | case2 p stack arena label ih =>
    obtain ⟨hfirst, hothers⟩ := List.forall_mem_cons.mp h
    have hadded : addChild p.parent arena.length (arena ++ [⟨label, p.parent, []⟩]) =
        addChild p.parent arena.length arena ++ [⟨label, p.parent, []⟩] :=
      addChild_append hfirst _
    have hlength : (addChild p.parent arena.length
        (arena ++ [⟨label, p.parent, []⟩])).length = arena.length + 1 := by
      rw [length_addChild, List.length_append]
      rfl
    have hstacked : ∀ entry ∈ Pending.nodes source
        (arena.length + (p.toNode source arena.length).size) stack, ∀ i, entry.1 = some i →
          i < (addChild p.parent arena.length arena).length := fun entry hentry i hi => by
      obtain ⟨q, hq, hparent⟩ := Pending.parent_of_mem_nodes hentry
      rw [length_addChild]
      exact hothers q hq i (hparent.trans hi)
    have hindex : (p.toNode source arena.length).label.index = arena.length :=
      Pending.index_label source arena.length p
    rw [build, ih ?_, hlength, Pending.nodes_children, hadded, addChildren_append,
      addChildren_last (length_addChild ..), addChildren_front hstacked, List.flatMap_append,
      Pending.nodes, addChildren, hindex, List.flatMap_cons, ofNode_toNode]
    · simp [label]
    · intro q hq i hi
      rw [hlength]
      rcases List.mem_append.mp hq with hq | hq
      · rw [Pending.parent_of_mem_below hq] at hi
        cases hi
        exact Nat.lt_succ_self _
      · exact Nat.lt_succ_of_lt (hothers q hq i hi)

end ArenaNode

/-- A place as it stands in an arena. -/
def Place.arenaNode (p : Place) : ArenaNode where
  label := p.label
  parent := p.parent?.map (·.label.index)
  children := p.node.children.map (·.label.index)

namespace ArenaNode

mutual

theorem ofNode_eq_preorder (above : List Node) : ∀ n : Node,
    ofNode (above.head?.map (·.label.index)) n = (Place.preorder above n).map Place.arenaNode
  | .node l cs => by
    have hbelow := ofNodes_eq_preorder (.node l cs :: above) cs
    rw [ofNode, Place.preorder, List.map_cons, ← hbelow]
    cases above <;> rfl

theorem ofNodes_eq_preorder (above : List Node) : ∀ cs : List Node,
    ofNodes (above.head?.map (·.label.index)) cs =
      (Place.preorderAll above cs).map Place.arenaNode
  | [] => rfl
  | c :: cs => by
    rw [ofNodes, Place.preorderAll, List.map_append, ofNode_eq_preorder above c,
      ofNodes_eq_preorder above cs]

end

/-- What is built from the root of a parse is its tree, node by node in preorder. -/
theorem build_eq_places (source : Text) (parse : Parse) :
    build source [{ node := parse.root }] [] =
      (Tree.ofParse source parse).places.map Place.arenaNode := by
  rw [build_eq source _ [] (by simp), Tree.places, ← ofNode_eq_preorder []]
  simp only [Pending.nodes, addChildren, addChild, List.flatMap_cons, List.flatMap_nil,
    List.nil_append, List.append_nil]
  rfl

end ArenaNode
end LogProbe
