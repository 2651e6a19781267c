import LogProbe.Proofs.Syntax.Order

/-! Functions as the grammars have them. The body and the parameters of a function, with what is
between them and the token before, lie within the function. -/
namespace LogProbe

namespace Parse
open ParseNode

/-- A place of a tree is made of a node of the parser: the root of the root, and the children of a
node of its structural children, in order. -/
inductive Makes (source : Text) (parse : Parse) : ParseNode → Place → Prop
  | root : Makes source parse parse.root (Tree.ofParse source parse).rootPlace
  | child {n c : ParseNode} {p : Place} {m : Node} (above : Makes source parse n p)
      (pair : (c, m) ∈ (n.children.filter isStructural).zip p.node.children) :
      Makes source parse c (p.below m)

/-- What is known of a place by the node that it is made of. -/
structure Origin (source : Text) (n : ParseNode) (p : Place) : Prop where
  nested : n.nested source = true
  plain : n.plainSiblings = true
  kind : p.kind = Kind.ofGrammar n.token.kind
  start_le : p.label.start ≤ n.token.start
  le_firstTokenEnd : p.label.start ≤ p.label.firstTokenEnd
  firstTokenEnd_le : p.label.firstTokenEnd ≤ p.label.stop
  children : ∃ next, p.node.children = Node.ofChildren next p.label.fullStart none n.children

end Parse

namespace ParseNode
variable {source : Text}

/-- The first token of a node ends no later than its last one that is no comment. -/
theorem firstTokenEnd_le_contentEnd : ∀ {n : ParseNode}, n.nested source = true →
    n.firstTokenEnd ≤ n.contentEnd
  | .node t (c :: cs), h => by
    obtain ⟨-, hceiling, hc, hcs⟩ := nestedAll_cons (nested_node h).2
    have hstop := firstTokenEnd_le hc
    rw [firstTokenEnd, contentEnd, lastContentEnd?]
    cases hrest : lastContentEnd? cs with
    | some finish =>
      have hlow := (lastContentEnd?_within hcs hrest).1
      change c.firstTokenEnd ≤ finish
      omega
    | none =>
      by_cases hcontent : c.isContent = true
      · simpa [hcontent] using firstTokenEnd_le_contentEnd hc
      · simp only [hcontent, Bool.false_eq_true, if_false, Option.getD_none]
        omega
  | .node t [], _ => Nat.le_refl _

end ParseNode

namespace Node
open ParseNode
variable {source : Text}

theorem mem_zip_ofChildren {next outer : Nat} {before : Option Nat} {cs : List ParseNode}
    {c : ParseNode} {m : Node}
    (h : (c, m) ∈ (cs.filter isStructural).zip (ofChildren next outer before cs)) :
    c ∈ cs ∧ ∃ index before, m = ofParse index outer before c := by
  induction cs generalizing next before with
  | nil => simp at h
  | cons d cs ih =>
    rw [ofChildren] at h
    by_cases hd : d.isStructural = true
    · rw [List.filter_cons_of_pos hd, if_pos hd, List.zip_cons_cons, List.mem_cons] at h
      rcases h with h | h
      · cases h
        exact ⟨List.mem_cons_self, next, before, rfl⟩
      · obtain ⟨hc, hm⟩ := ih h
        exact ⟨List.mem_cons_of_mem _ hc, hm⟩
    · rw [List.filter_cons_of_neg hd, if_neg hd] at h
      obtain ⟨hc, hm⟩ := ih h
      exact ⟨List.mem_cons_of_mem _ hc, hm⟩

theorem exists_mem_zip_ofChildren {next outer : Nat} {before : Option Nat} {cs : List ParseNode}
    {m : Node} (hm : m ∈ ofChildren next outer before cs) :
    ∃ c, (c, m) ∈ (cs.filter isStructural).zip (ofChildren next outer before cs) := by
  induction cs generalizing next before with
  | nil => simp [ofChildren] at hm
  | cons d cs ih =>
    rw [ofChildren] at hm ⊢
    by_cases hd : d.isStructural = true
    · rw [if_pos hd] at hm
      rw [List.filter_cons_of_pos hd, if_pos hd, List.zip_cons_cons]
      rcases List.mem_cons.mp hm with rfl | hm
      · exact ⟨d, List.mem_cons_self⟩
      · obtain ⟨c, hc⟩ := ih hm
        exact ⟨c, List.mem_cons_of_mem _ hc⟩
    · rw [if_neg hd] at hm
      rw [List.filter_cons_of_neg hd, if_neg hd]
      exact ih hm

/-- Where a child is not the first one, it and the token before it are within the room of the
children. -/
theorem floor_le_fullStart {floor ceiling next outer : Nat} {cs : List ParseNode} {m : Node}
    (h : nestedAll source floor ceiling cs = true) (hplain : plainSiblingsAll cs = true)
    (hm : m ∈ ofChildren next outer none cs)
    (hfirst : ∀ c, cs.head? = some c → c.isStructural = true →
      c.token.field.bind Field.ofGrammar? ≠ m.field) : floor ≤ m.label.fullStart := by
  cases cs with
  | nil => simp [ofChildren] at hm
  | cons c cs =>
    obtain ⟨hfloor, -, hc, hcs⟩ := nestedAll_cons h
    have hforward := (token_span hc).1
    rw [plainSiblingsAll, Bool.and_eq_true] at hplain
    have hrest {next : Nat} (hm : m ∈ ofChildren next outer (some c.token.stop) cs) :
        floor ≤ m.label.fullStart := by
      refine le_fullStart_of_mem_ofChildren hcs hplain.2 ?_ ?_ hm
      · change floor ≤ c.token.stop
        omega
      · omega
    rw [ofChildren] at hm
    split at hm
    · rename_i hstructural
      rcases List.mem_cons.mp hm with rfl | hm
      · refine absurd ?_ (hfirst c rfl hstructural)
        cases c
        rfl
      · exact hrest hm
    · exact hrest hm

end Node

namespace Parse
open ParseNode
variable {source : Text} {parse : Parse} {n : ParseNode} {p : Place}

theorem origin_of_ofParse {parent : Place} {c : ParseNode} {index outer : Nat}
    {before : Option Nat} (h : c.nested source = true) (hplain : c.plainSiblings = true) :
    Origin source c (parent.below (Node.ofParse index outer before c)) := by
  have hfirst := firstTokenEnd_le_contentEnd h
  have hlow := ParseNode.le_firstTokenEnd h
  cases c with
  | node t cs => exact ⟨h, hplain, rfl, Nat.le_refl _, hlow, hfirst, _, rfl⟩

theorem Makes.origin (h : parse.Makes source n p) (hnested : parse.root.nested source = true)
    (hplain : parse.root.plainSiblings = true) : Origin source n p := by
  induction h with
  | root =>
    obtain ⟨⟨t, cs⟩, hasErrors⟩ := parse
    have hstop := Text.le_size_of_isBoundary (token_span hnested).2.2
    exact ⟨hnested, hplain, rfl, Nat.zero_le _, Nat.zero_le _,
      Nat.le_trans (firstTokenEnd_le hnested) hstop, 1, rfl⟩
  | @child n c p m _ pair ih =>
    obtain ⟨next, hchildren⟩ := ih.children
    rw [hchildren] at pair
    obtain ⟨hc, index, before, rfl⟩ := Node.mem_zip_ofChildren pair
    cases n with
    | node t cs =>
      exact origin_of_ofParse (mem_nestedAll (nested_node ih.nested).2 hc).2.2
        (plainSiblings_of_mem (plainSiblings_node ih.plain).2 hc)

theorem Makes.mem_places (h : parse.Makes source n p) : p ∈ (Tree.ofParse source parse).places := by
  induction h with
  | root => exact Tree.rootPlace_mem_places _
  | child _ pair ih => exact Tree.closed_places _ |>.below ih (List.of_mem_zip pair).2

theorem Makes.below_mem_places (h : parse.Makes source n p) {q : Place}
    (hq : q ∈ Place.preorderAll (p.node :: p.above) p.node.children) :
    q ∈ (Tree.ofParse source parse).places :=
  Place.forall_mem_preorderAll (S := (· ∈ (Tree.ofParse source parse).places))
    (Tree.closed_places _).below (fun _ hc => (Tree.closed_places _).below h.mem_places hc) hq

/-- Every place of a tree is made of a node. -/
theorem exists_makes (hnested : parse.root.nested source = true)
    (hplain : parse.root.plainSiblings = true) (hp : p ∈ (Tree.ofParse source parse).places) :
    ∃ n, parse.Makes source n p := by
  refine Tree.forall_mem_places (S := fun p => ∃ n, parse.Makes source n p)
    (fun {p m} h hm => ?_) ⟨_, .root⟩ hp
  obtain ⟨n, hmade⟩ := h
  obtain ⟨next, hchildren⟩ := (hmade.origin hnested hplain).children
  obtain ⟨c, pair⟩ := Node.exists_mem_zip_ofChildren (hchildren ▸ hm)
  exact ⟨c, .child hmade (by rw [hchildren]; exact pair)⟩

end Parse

/-- A function made of a parser's node `n`. Its body is a block, that of an arrow function may be an
expression instead; a list of parameters starts with a token, and a parameter without a list is a
name alone. -/
structure Place.IsFunction (n : ParseNode) (f body : Place) : Prop where
  kind : f.kind.isFunctionLike = true
  hasBody : f.child? .body = some body
  bodyKind : body.kind = .statementBlock ∨
    f.kind = .arrowFunction ∧ body.kind.isStatement = false
  bodyNotFirst : ∀ c, n.children.head? = some c → c.isStructural = true →
    c.token.field.bind Field.ofGrammar? ≠ some .body
  opened : ∀ c ∈ n.children, Kind.ofGrammar c.token.kind = .formalParameters →
    ∀ d, c.children.head? = some d → d.isStructural = false
  bare : f.kind = .arrowFunction → ∀ c ∈ f.node.children, c.field = some .parameter →
    c.children = []
  content : ∀ p ∈ Place.preorderAll (f.node :: f.above) f.node.children,
    p.label.start < p.label.stop

namespace Place

/-- A node below a function that lies within it, together with the blanks before it. -/
structure EnclosedBy (f p : Place) : Prop where
  below : p ∈ preorderAll (f.node :: f.above) f.node.children
  start_le : f.label.start ≤ p.label.fullStart
  le_stop : p.label.stop ≤ f.label.stop

namespace IsFunction
open ParseNode
variable {source : Text} {parse : Parse} {n : ParseNode} {f body p : Place}
  (h : IsFunction n f body)
include h

theorem exists_eq_below : ∃ m ∈ f.node.children, m.field = some .body ∧ body = f.below m := by
  obtain ⟨m, hm, rfl⟩ := Option.map_eq_some_iff.mp h.hasBody
  exact ⟨m, List.mem_of_find?_eq_some hm, by simpa using List.find?_some hm, rfl⟩

variable (hnested : parse.root.nested source = true) (hplain : parse.root.plainSiblings = true)
include hnested hplain

theorem within {q : Place} {c : Node} (hq : q ∈ (Tree.ofParse source parse).places)
    (hc : c ∈ q.node.children)
    (hbelow : q.below c ∈ preorderAll (f.node :: f.above) f.node.children) :
    q.label.start ≤ c.label.start ∧ c.label.stop ≤ q.label.stop :=
  (Tree.ordered_of_mem_places (Tree.ordered_ofParse hnested hplain) hq).within hc
    (h.content _ hbelow)

variable (hmade : parse.Makes source n f)
include hmade

/-- What is below an enclosed node is enclosed. -/
theorem enclosed_below {c : Node} (hp : f.EnclosedBy p) (hc : c ∈ p.node.children) :
    f.EnclosedBy (p.below c) := by
  have hbelow := below_mem_preorderAll hc hp.below
  have hmem := hmade.below_mem_places hp.below
  have hstart := (Tree.ordered_of_mem_places (Tree.ordered_ofParse hnested hplain)
    hmem).fullStart_le_child hc
  have hstop := (h.within hnested hplain hmem hc hbelow).2
  exact ⟨hbelow, Nat.le_trans hp.start_le hstart, Nat.le_trans hstop hp.le_stop⟩

theorem enclosed_body : f.EnclosedBy body := by
  obtain ⟨m, hm, hfield, rfl⟩ := h.exists_eq_below
  have horigin := hmade.origin hnested hplain
  obtain ⟨next, hchildren⟩ := horigin.children
  have hbelow : f.below m ∈ preorderAll (f.node :: f.above) f.node.children :=
    mem_preorderAll_of_mem hm
  have hfull : n.token.start ≤ m.label.fullStart := by
    cases n with
    | node t cs =>
      refine Node.floor_le_fullStart (nested_node horigin.nested).2
        (plainSiblings_node horigin.plain).2 (hchildren ▸ hm) fun c hc hstructural => ?_
      rw [hfield]
      exact h.bodyNotFirst c hc hstructural
  exact ⟨hbelow, Nat.le_trans horigin.start_le hfull,
    (h.within hnested hplain hmade.mem_places hm hbelow).2⟩

/-- A member of a list of parameters is enclosed, because the list starts with a token. -/
theorem enclosed_member {m c : Node} (hm : m ∈ f.node.children)
    (hkind : m.kind = .formalParameters) (hc : c ∈ m.children) :
    f.EnclosedBy ((f.below m).below c) := by
  obtain ⟨next, hchildren⟩ := (hmade.origin hnested hplain).children
  obtain ⟨list, hpair⟩ := Node.exists_mem_zip_ofChildren (hchildren ▸ hm)
  have hlist : list ∈ n.children := (Node.mem_zip_ofChildren hpair).1
  have hmadeList : parse.Makes source list (f.below m) := .child hmade (hchildren ▸ hpair)
  have horigin := hmadeList.origin hnested hplain
  obtain ⟨next, hmembers⟩ := horigin.children
  have hopened := h.opened list hlist (horigin.kind.symm.trans hkind)
  have hfull : list.token.start ≤ c.label.fullStart := by
    cases list with
    | node t cs =>
      refine Node.floor_le_fullStart (nested_node horigin.nested).2
        (plainSiblings_node horigin.plain).2 (hmembers ▸ hc) fun d hd hstructural => ?_
      rw [hopened d hd] at hstructural
      cases hstructural
  have hbelowList : f.below m ∈ preorderAll (f.node :: f.above) f.node.children :=
    mem_preorderAll_of_mem hm
  have hbelow := below_mem_preorderAll hc hbelowList
  have houter := h.within hnested hplain hmade.mem_places hm hbelowList
  have hinner := h.within hnested hplain hmadeList.mem_places hc hbelow
  exact ⟨hbelow, Nat.le_trans houter.1 (Nat.le_trans horigin.start_le hfull),
    Nat.le_trans hinner.2 houter.2⟩

end IsFunction
end Place
end LogProbe
