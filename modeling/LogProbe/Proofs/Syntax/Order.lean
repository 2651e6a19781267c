import LogProbe.Proofs.Syntax.Leaves

/-! The order of the nodes of a tree. Where the parser names the child before it as the sibling of
each node, whatever precedes a node ends no later than the full start of the node. -/
namespace LogProbe
namespace Node
open ParseNode

/-- Full starts do not decrease downwards, and siblings end before the full start of the next one.
Children start within their parent, and with content they end within it. -/
inductive Ordered : Node → Prop
  | node {l : Label} {cs : List Node} (fullStart_le : l.fullStart ≤ l.start)
      (below : ∀ c ∈ cs, Ordered c)
      (siblings : cs.Pairwise fun a b => a.label.stop ≤ b.label.fullStart)
      (inside : ∀ c ∈ cs, l.fullStart ≤ c.label.fullStart ∧ l.start ≤ c.label.start ∧
        (c.label.start < c.label.stop → c.label.stop ≤ l.stop)) :
      Ordered (.node l cs)

theorem Ordered.fullStart_le {n : Node} (h : n.Ordered) : n.label.fullStart ≤ n.label.start := by
  cases h with
  | node fullStart_le => exact fullStart_le

theorem Ordered.of_mem {n c : Node} (h : n.Ordered) (hc : c ∈ n.children) : c.Ordered := by
  cases h with
  | node _ below => exact below c hc

/-- A child with content lies within its parent. -/
theorem Ordered.within {n c : Node} (h : n.Ordered) (hc : c ∈ n.children)
    (hcontent : c.label.start < c.label.stop) :
    n.label.start ≤ c.label.start ∧ c.label.stop ≤ n.label.stop := by
  cases h with
  | node _ _ _ inside =>
    obtain ⟨-, hstart, hstop⟩ := inside c hc
    exact ⟨hstart, hstop hcontent⟩

theorem Ordered.fullStart_le_child {n c : Node} (h : n.Ordered) (hc : c ∈ n.children) :
    n.label.fullStart ≤ c.label.fullStart := by
  cases h with
  | node _ _ _ inside => exact (inside c hc).1

variable {source : Text}

/-- An ordered node is sound where it and all nodes below it have sound labels and content. -/
theorem Ordered.sound {n : Node} (h : n.Ordered) : ∀ above : List Node,
    (∀ p ∈ Place.preorder above n, p.label.Sound source ∧ p.label.start < p.label.stop) →
      n.Sound source := by
  induction h with
  | @node l cs _ below siblings inside ih =>
    intro above hall
    rw [Place.preorder, List.forall_mem_cons] at hall
    obtain ⟨⟨hlabel, hwidth⟩, hbelow⟩ := hall
    have hchild (c : Node) (hc : c ∈ cs) : c.label.start < c.label.stop :=
      (hbelow _ (Place.mem_preorderAll_of_mem hc)).2
    refine .node hlabel (fun c hc => ?_) (siblings.imp_of_mem fun {a b} _ hb hle => ?_)
      (fun c hc => (inside c hc).2) fun _ => ⟨hwidth, fun c hc _ => ?_⟩
    · exact ih c hc _ fun p hp => hbelow p (Place.mem_preorderAll_iff.mpr ⟨c, hc, hp⟩)
    · exact Nat.le_trans hle (below b hb).fullStart_le
    · exact (inside c hc).2.2 (hchild c hc)

theorem fullStart_ofParse_of_plain {n : ParseNode} {index outer : Nat} {before : Option Nat}
    (h : n.plainSiblings = true) :
    (ofParse index outer before n).label.fullStart = before.getD outer := by
  cases n with
  | node t cs =>
    rw [ofParse, (plainSiblings_node h).1]
    rfl

/-- The full start of a child is not above what its siblings stand behind. -/
theorem le_fullStart_of_mem_ofChildren {floor ceiling next outer low : Nat} {before : Option Nat}
    {cs : List ParseNode} {m : Node} (h : nestedAll source floor ceiling cs = true)
    (hplain : plainSiblingsAll cs = true) (hlow : low ≤ before.getD outer) (hfloor : low ≤ floor)
    (hm : m ∈ ofChildren next outer before cs) : low ≤ m.label.fullStart := by
  obtain ⟨index, front, c, back, rfl, rfl⟩ := exists_split_of_mem_ofChildren hm
  rw [fullStart_ofParse_of_plain (plainSiblings_of_mem hplain (by simp))]
  cases hlast : front.getLast? with
  | none => exact hlow
  | some d =>
    obtain ⟨hd, -, hnested⟩ := (nestedAll_split h).1 d (List.mem_of_getLast? hlast)
    have hspan := (token_span hnested).1
    change low ≤ d.token.stop
    omega

theorem siblings_ofChildren {floor ceiling next outer : Nat} {before : Option Nat}
    {cs : List ParseNode} (h : nestedAll source floor ceiling cs = true)
    (hplain : plainSiblingsAll cs = true) :
    (ofChildren next outer before cs).Pairwise fun a b => a.label.stop ≤ b.label.fullStart := by
  induction cs generalizing floor next before with
  | nil => simp [ofChildren]
  | cons c cs ih =>
    obtain ⟨-, -, hc, hcs⟩ := nestedAll_cons h
    rw [plainSiblingsAll, Bool.and_eq_true] at hplain
    rw [ofChildren]
    split
    · refine List.pairwise_cons.mpr ⟨fun m hm => ?_, ih hcs hplain.2⟩
      have hfull : c.token.stop ≤ m.label.fullStart :=
        le_fullStart_of_mem_ofChildren hcs hplain.2 (Nat.le_refl _) (Nat.le_refl _) hm
      have hstop := (endsWithin_contentEnd hc).le_stop
      have hends : (ofParse next outer before c).label.stop = c.contentEnd := by
        cases c
        rw [ofParse]
        rfl
      omega
    · exact ih hcs hplain.2

/-- A node over the children of a parser's node is ordered with them. -/
theorem ordered_of_children {l : Label} {floor ceiling next : Nat} {cs : List ParseNode}
    (h : nestedAll source floor ceiling cs = true) (hplain : plainSiblingsAll cs = true)
    (hfull : l.fullStart ≤ l.start) (hstart : l.start ≤ floor)
    (hstop : ∀ finish, lastContentEnd? cs = some finish → finish ≤ l.stop)
    (hbelow : ∀ n ∈ ofChildren next l.fullStart none cs, n.Ordered) :
    (Node.node l (ofChildren next l.fullStart none cs)).Ordered := by
  refine .node hfull hbelow (siblings_ofChildren h hplain) fun n hn => ?_
  obtain ⟨hfloor, hwithin⟩ := within_of_mem_ofChildren (spansNestAll_of_nestedAll h) hn
  have hlow : l.fullStart ≤ n.label.fullStart :=
    le_fullStart_of_mem_ofChildren h hplain (Nat.le_refl _) (Nat.le_trans hfull hstart) hn
  refine ⟨hlow, by omega, fun hwidth => ?_⟩
  obtain ⟨finish, hlast, hfinish⟩ := hwithin hwidth
  have := hstop finish hlast
  omega

mutual

theorem ordered_ofParse : ∀ {n : ParseNode} {index outer : Nat} {before : Option Nat},
    n.nested source = true → n.plainSiblings = true → before.getD outer ≤ n.token.start →
      (ofParse index outer before n).Ordered
  | .node t cs, index, outer, before, h, hplain, hfull => by
    obtain ⟨hprevious, hsiblings⟩ := plainSiblings_node hplain
    have hcs := (nested_node h).2
    rw [ofParse, hprevious]
    refine ordered_of_children hcs hsiblings hfull (Nat.le_refl _) ?_
      (forall_ordered_ofChildren hcs hsiblings hfull)
    intro finish hlast
    simp [contentEnd, hlast]

theorem forall_ordered_ofChildren : ∀ {cs : List ParseNode} {floor ceiling next outer : Nat}
    {before : Option Nat}, nestedAll source floor ceiling cs = true →
    plainSiblingsAll cs = true → before.getD outer ≤ floor →
      ∀ n ∈ ofChildren next outer before cs, n.Ordered
  | [], _, _, _, _, _, _, _, _, n, hn => by simp [ofChildren] at hn
  | c :: cs, floor, _, next, outer, before, h, hplain, hfull, n, hn => by
    obtain ⟨hfloor, -, hc, hcs⟩ := nestedAll_cons h
    rw [plainSiblingsAll, Bool.and_eq_true] at hplain
    rw [ofChildren] at hn
    split at hn
    · rcases List.mem_cons.mp hn with rfl | hn
      · exact ordered_ofParse hc hplain.1 (by omega)
      · exact forall_ordered_ofChildren hcs hplain.2 (Nat.le_refl _) n hn
    · exact forall_ordered_ofChildren hcs hplain.2 (Nat.le_refl _) n hn

end

end Node

/-- The tree of a text is ordered where the nodes of the parser nest and name their siblings. -/
theorem Tree.ordered_ofParse {source : Text} {parse : Parse}
    (h : parse.root.nested source = true) (hplain : parse.root.plainSiblings = true) :
    (Tree.ofParse source parse).root.Ordered := by
  obtain ⟨⟨t, cs⟩, hasErrors⟩ := parse
  have hcs := (ParseNode.nested_node h).2
  have hsiblings := (ParseNode.plainSiblings_node hplain).2
  refine Node.ordered_of_children hcs hsiblings (Nat.le_refl _) (Nat.zero_le _) ?_
    (Node.forall_ordered_ofChildren hcs hsiblings (Nat.zero_le _))
  intro finish hlast
  exact Text.le_size_of_isBoundary (ParseNode.lastContentEnd?_within hcs hlast).2.2

namespace Tree

theorem ordered_of_mem_places {tree : Tree} (h : tree.root.Ordered) {p : Place}
    (hp : p ∈ tree.places) : p.node.Ordered :=
  forall_mem_places (S := fun p => p.node.Ordered) (fun h hc => h.of_mem hc) h hp

theorem mem_children_of_parent? {tree : Tree} {p q : Place} (hp : p ∈ tree.places)
    (hq : p.parent? = some q) : p.node ∈ q.node.children := by
  refine forall_mem_places (S := fun p => ∀ q, p.parent? = some q → p.node ∈ q.node.children)
    (fun {p c} _ hc q hq => ?_) (by simp [rootPlace, Place.parent?]) hp q hq
  rw [Place.parent?_below] at hq
  cases hq
  exact hc

end Tree
end LogProbe
