import LogProbe.Proofs.Syntax.Place

/-! Where the leaves of a parse stand. No offset that a tree keeps of a node falls within a leaf,
and between the end of the token before a node and the node itself there is none. -/
namespace LogProbe

/-- The offset does not fall within the token. -/
def Token.Spares (offset : Nat) (t : Token) : Prop := t.stop ≤ offset ∨ offset ≤ t.start

namespace ParseNode

mutual
/-- The tokens that a node is made of, comments included. -/
def leaves : ParseNode → List Token
  | .node t cs => if cs.isEmpty then [t] else leavesAll cs

def leavesAll : List ParseNode → List Token
  | [] => []
  | c :: cs => leaves c ++ leavesAll cs
end

mutual
/-- The parser names no other preceding sibling of a node than the child before it. -/
def plainSiblings : ParseNode → Bool
  | .node t cs => t.previous.isNone && plainSiblingsAll cs

def plainSiblingsAll : List ParseNode → Bool
  | [] => true
  | c :: cs => c.plainSiblings && plainSiblingsAll cs
end

variable {source : Text}

theorem leaves_node_cons (t : Token) (c : ParseNode) (cs : List ParseNode) :
    leaves (.node t (c :: cs)) = leavesAll (c :: cs) := by
  rw [leaves]
  rfl

theorem leaves_node_nil (t : Token) : leaves (.node t []) = [t] := by
  rw [leaves]
  rfl

theorem leavesAll_append (front back : List ParseNode) :
    leavesAll (front ++ back) = leavesAll front ++ leavesAll back := by
  induction front with
  | nil => rfl
  | cons c front ih => simp only [List.cons_append, leavesAll, ih, List.append_assoc]

theorem mem_leavesAll {cs : List ParseNode} {t : Token} (h : t ∈ leavesAll cs) :
    ∃ c ∈ cs, t ∈ c.leaves := by
  induction cs with
  | nil => simp [leavesAll] at h
  | cons c cs ih =>
    rw [leavesAll, List.mem_append] at h
    rcases h with h | h
    · exact ⟨c, by simp, h⟩
    · obtain ⟨d, hd, ht⟩ := ih h
      exact ⟨d, by simp [hd], ht⟩

theorem plainSiblings_node {t : Token} {cs : List ParseNode}
    (h : (node t cs).plainSiblings = true) :
    t.previous = none ∧ plainSiblingsAll cs = true := by
  rw [plainSiblings, Bool.and_eq_true, Option.isNone_iff_eq_none] at h
  exact h

theorem plainSiblings_of_mem {cs : List ParseNode} {c : ParseNode}
    (h : plainSiblingsAll cs = true) (hc : c ∈ cs) : c.plainSiblings = true := by
  induction cs with
  | nil => cases hc
  | cons d cs ih =>
    rw [plainSiblingsAll, Bool.and_eq_true] at h
    rcases List.mem_cons.mp hc with rfl | hc
    · exact h.1
    · exact ih h.2 hc

/-- A child, what is before it and what is behind it. -/
theorem nestedAll_split {floor ceiling : Nat} {front back : List ParseNode} {c : ParseNode}
    (h : nestedAll source floor ceiling (front ++ c :: back) = true) :
    (∀ d ∈ front, floor ≤ d.token.start ∧ d.token.stop ≤ c.token.start ∧ d.nested source = true) ∧
      floor ≤ c.token.start ∧ c.token.stop ≤ ceiling ∧ c.nested source = true ∧
      ∀ d ∈ back, c.token.stop ≤ d.token.start ∧ d.token.stop ≤ ceiling ∧
        d.nested source = true := by
  induction front generalizing floor with
  | nil =>
    obtain ⟨hfloor, hceiling, hc, hback⟩ := nestedAll_cons h
    exact ⟨by simp, hfloor, hceiling, hc, fun d hd => mem_nestedAll hback hd⟩
  | cons d front ih =>
    obtain ⟨hfloor, -, hd, hrest⟩ := nestedAll_cons h
    obtain ⟨hfront, hlow, hceiling, hc, hback⟩ := ih hrest
    have hforward := (token_span hd).1
    refine ⟨List.forall_mem_cons.mpr ⟨⟨hfloor, hlow, hd⟩, fun e he => ?_⟩, by omega, hceiling, hc,
      hback⟩
    obtain ⟨hlow', hrest'⟩ := hfront e he
    exact ⟨by omega, hrest'⟩

mutual

theorem leaf_within : ∀ {n : ParseNode} {t : Token}, n.nested source = true → t ∈ n.leaves →
    n.token.start ≤ t.start ∧ t.start ≤ t.stop ∧ t.stop ≤ n.token.stop
  | .node t [], _, h, ht => by
    rw [leaves_node_nil, List.mem_singleton] at ht
    subst ht
    exact ⟨Nat.le_refl _, (token_span h).1, Nat.le_refl _⟩
  | .node t (c :: cs), _, h, ht => by
    rw [leaves_node_cons] at ht
    exact leaf_withinAll (nested_node h).2 ht

theorem leaf_withinAll : ∀ {cs : List ParseNode} {floor ceiling : Nat} {t : Token},
    nestedAll source floor ceiling cs = true → t ∈ leavesAll cs →
      floor ≤ t.start ∧ t.start ≤ t.stop ∧ t.stop ≤ ceiling
  | [], _, _, _, _, ht => by simp [leavesAll] at ht
  | c :: cs, _, _, _, h, ht => by
    obtain ⟨hfloor, hceiling, hc, hcs⟩ := nestedAll_cons h
    rw [leavesAll, List.mem_append] at ht
    rcases ht with ht | ht
    · obtain ⟨hlow, hforward, hhigh⟩ := leaf_within hc ht
      exact ⟨by omega, hforward, by omega⟩
    · obtain ⟨hlow, hforward, hhigh⟩ := leaf_withinAll hcs ht
      have hspan := (token_span hc).1
      exact ⟨by omega, hforward, hhigh⟩

end

mutual

theorem boundaries_leaf : ∀ {n : ParseNode} {t : Token}, n.nested source = true → t ∈ n.leaves →
    source.isBoundary t.start = true ∧ source.isBoundary t.stop = true
  | .node t [], _, h, ht => by
    rw [leaves_node_nil, List.mem_singleton] at ht
    subst ht
    exact (token_span h).2
  | .node t (c :: cs), _, h, ht => by
    rw [leaves_node_cons] at ht
    exact boundaries_leafAll (nested_node h).2 ht

theorem boundaries_leafAll : ∀ {cs : List ParseNode} {floor ceiling : Nat} {t : Token},
    nestedAll source floor ceiling cs = true → t ∈ leavesAll cs →
      source.isBoundary t.start = true ∧ source.isBoundary t.stop = true
  | [], _, _, _, _, ht => by simp [leavesAll] at ht
  | c :: cs, _, _, _, h, ht => by
    obtain ⟨-, -, hc, hcs⟩ := nestedAll_cons h
    rw [leavesAll, List.mem_append] at ht
    rcases ht with ht | ht
    · exact boundaries_leaf hc ht
    · exact boundaries_leafAll hcs ht

end

mutual

/-- The leaves of a node come in the order of the text. -/
theorem pairwise_leaves : ∀ {n : ParseNode}, n.nested source = true →
    n.leaves.Pairwise fun a b => a.stop ≤ b.start
  | .node t [], _ => by
    rw [leaves_node_nil]
    exact List.pairwise_singleton _ _
  | .node t (c :: cs), h => by
    rw [leaves_node_cons]
    exact pairwise_leavesAll (nested_node h).2

theorem pairwise_leavesAll : ∀ {cs : List ParseNode} {floor ceiling : Nat},
    nestedAll source floor ceiling cs = true →
      (leavesAll cs).Pairwise fun a b => a.stop ≤ b.start
  | [], _, _, _ => .nil
  | c :: cs, _, _, h => by
    obtain ⟨-, -, hc, hcs⟩ := nestedAll_cons h
    rw [leavesAll]
    refine List.pairwise_append.mpr ⟨pairwise_leaves hc, pairwise_leavesAll hcs, ?_⟩
    intro a ha b hb
    have hstop := (leaf_within hc ha).2.2
    have hstart := (leaf_withinAll hcs hb).1
    omega

end

mutual

/-- The content of a node ends between two of its leaves. -/
theorem spares_contentEnd : ∀ {n : ParseNode} {t : Token}, n.nested source = true →
    t ∈ n.leaves → t.Spares n.contentEnd
  | .node t cs, leaf, h, hleaf => by
    have hwithin := leaf_within h hleaf
    rw [contentEnd]
    cases hlast : lastContentEnd? cs with
    | none => exact .inl hwithin.2.2
    | some finish =>
      cases cs with
      | nil => simp [lastContentEnd?] at hlast
      | cons c cs =>
        rw [leaves_node_cons] at hleaf
        exact spares_lastContentEnd? (nested_node h).2 hlast hleaf

theorem spares_lastContentEnd? : ∀ {cs : List ParseNode} {floor ceiling finish : Nat} {t : Token},
    nestedAll source floor ceiling cs = true → lastContentEnd? cs = some finish →
      t ∈ leavesAll cs → t.Spares finish
  | [], _, _, _, _, _, hlast, _ => by simp [lastContentEnd?] at hlast
  | c :: cs, _, _, _, leaf, h, hlast, hleaf => by
    obtain ⟨-, -, hc, hcs⟩ := nestedAll_cons h
    rw [lastContentEnd?] at hlast
    rw [leavesAll, List.mem_append] at hleaf
    cases hrest : lastContentEnd? cs with
    | some finish =>
      rw [hrest] at hlast
      cases hlast
      rcases hleaf with hleaf | hleaf
      · have hstop := (leaf_within hc hleaf).2.2
        have hlow := (lastContentEnd?_within hcs hrest).1
        exact .inl (by omega)
      · exact spares_lastContentEnd? hcs hrest hleaf
    | none =>
      rw [hrest] at hlast
      by_cases hcontent : c.isContent = true
      · simp only [hcontent, if_true, Option.some.injEq] at hlast
        subst hlast
        rcases hleaf with hleaf | hleaf
        · exact spares_contentEnd hc hleaf
        · have hstart := (leaf_withinAll hcs hleaf).1
          have hstop := (endsWithin_contentEnd hc).le_stop
          exact .inr (by omega)
      · simp [hcontent] at hlast

end

theorem firstTokenEnd_le : ∀ {n : ParseNode}, n.nested source = true →
    n.firstTokenEnd ≤ n.token.stop
  | .node _ [], _ => Nat.le_refl _
  | .node t (c :: _), h => by
    obtain ⟨-, hceiling, hc, -⟩ := nestedAll_cons (nested_node h).2
    have hle := firstTokenEnd_le hc
    change c.firstTokenEnd ≤ t.stop
    omega

theorem le_firstTokenEnd : ∀ {n : ParseNode}, n.nested source = true →
    n.token.start ≤ n.firstTokenEnd
  | .node _ [], h => (token_span h).1
  | .node t (c :: _), h => by
    obtain ⟨hfloor, -, hc, -⟩ := nestedAll_cons (nested_node h).2
    have hle := le_firstTokenEnd hc
    change t.start ≤ c.firstTokenEnd
    omega

/-- The first token of a node ends between two of its leaves. -/
theorem spares_firstTokenEnd : ∀ {n : ParseNode} {t : Token}, n.nested source = true →
    t ∈ n.leaves → t.Spares n.firstTokenEnd
  | .node _ [], _, _, ht => by
    rw [leaves_node_nil, List.mem_singleton] at ht
    subst ht
    exact .inl (Nat.le_refl _)
  | .node t (c :: cs), leaf, h, hleaf => by
    obtain ⟨-, -, hc, hcs⟩ := nestedAll_cons (nested_node h).2
    rw [leaves_node_cons, leavesAll, List.mem_append] at hleaf
    rw [firstTokenEnd]
    rcases hleaf with hleaf | hleaf
    · exact spares_firstTokenEnd hc hleaf
    · have hle := firstTokenEnd_le hc
      have hstart := (leaf_withinAll hcs hleaf).1
      exact .inr (by omega)

/-- A leaf of a list of children is in front of the end of the child before `c`, in `c` or behind
it. -/
theorem leaf_beside {floor ceiling : Nat} {front back : List ParseNode} {c : ParseNode} {t : Token}
    (h : nestedAll source floor ceiling (front ++ c :: back) = true)
    (ht : t ∈ leavesAll (front ++ c :: back)) :
    t ∈ c.leaves ∨ (∃ last, front.getLast? = some last ∧ t.stop ≤ last.token.stop) ∨
      c.token.stop ≤ t.start := by
  rw [leavesAll_append, List.mem_append, leavesAll, List.mem_append] at ht
  rcases ht with ht | ht | ht
  · rcases front.eq_nil_or_concat with rfl | ⟨front, last, rfl⟩
    · simp [leavesAll] at ht
    · rw [List.concat_eq_append] at *
      rw [List.append_assoc, List.singleton_append] at h
      obtain ⟨hfront, -, -, hlast, -⟩ := nestedAll_split h
      refine .inr (.inl ⟨last, List.getLast?_concat, ?_⟩)
      obtain ⟨d, hd, ht⟩ := mem_leavesAll ht
      rcases List.mem_append.mp hd with hd | hd
      · obtain ⟨-, hbefore, hnested⟩ := hfront d hd
        have hwithin := leaf_within hnested ht
        have hforward := (token_span hlast).1
        omega
      · rw [List.mem_singleton.mp hd] at ht
        exact (leaf_within hlast ht).2.2
  · exact .inl ht
  · obtain ⟨d, hd, ht⟩ := mem_leavesAll ht
    obtain ⟨hafter, -, hnested⟩ := (nestedAll_split h).2.2.2.2 d hd
    exact .inr (.inr (Nat.le_trans hafter (leaf_within hnested ht).1))

/-- Where a node stands among the leaves of the whole parse: each of them is its own, before it or
behind it. `outer` and `before` are the offsets that its full start is taken from; if siblings are
`plain`, no leaf with content lies between that and the node. -/
structure Stands (source : Text) (all : List Token) (plain : Prop) (n : ParseNode) (outer : Nat)
    (before : Option Nat) : Prop where
  nested : n.nested source = true
  outer_le : outer ≤ n.token.start
  outer_boundary : source.isBoundary outer = true
  before_spec : ∀ b, before = some b → b ≤ n.token.start ∧ source.isBoundary b = true
  apart : ∀ t ∈ all, t ∈ n.leaves ∨ t.stop ≤ n.token.start ∨ n.token.stop ≤ t.start
  siblings : plain → n.plainSiblings = true
  gap : plain → ∀ t ∈ all, t.start < t.stop →
    t.stop ≤ before.getD outer ∨ n.token.start ≤ t.start

variable {all : List Token} {plain : Prop} {n : ParseNode} {outer : Nat} {before : Option Nat}

theorem Stands.spares (h : Stands source all plain n outer before) {offset : Nat}
    (hlow : n.token.start ≤ offset) (hhigh : offset ≤ n.token.stop)
    (hown : ∀ t ∈ n.leaves, t.Spares offset) {t : Token} (ht : t ∈ all) : t.Spares offset := by
  rcases h.apart t ht with ht | ht | ht
  · exact hown t ht
  · exact .inl (by omega)
  · exact .inr (by omega)

end ParseNode

namespace Node
open ParseNode
variable {source : Text} {all : List Token} {plain : Prop}

/-- A child in the tree is a child of the parser, with the end of the child before it. -/
theorem exists_split_of_mem_ofChildren {next outer : Nat} {before : Option Nat}
    {cs : List ParseNode} {m : Node} (hm : m ∈ ofChildren next outer before cs) :
    ∃ index front c back, cs = front ++ c :: back ∧
      m = ofParse index outer ((front.getLast?.map (·.token.stop)).or before) c := by
  induction cs generalizing next before with
  | nil => simp [ofChildren] at hm
  | cons c cs ih =>
    have hrest {next : Nat} (hm : m ∈ ofChildren next outer (some c.token.stop) cs) :
        ∃ index front d back, c :: cs = front ++ d :: back ∧
          m = ofParse index outer ((front.getLast?.map (·.token.stop)).or before) d := by
      obtain ⟨index, front, d, back, rfl, rfl⟩ := ih hm
      refine ⟨index, c :: front, d, back, rfl, ?_⟩
      cases hlast : front.getLast? <;> simp [List.getLast?_cons, hlast]
    rw [ofChildren] at hm
    split at hm
    · rcases List.mem_cons.mp hm with rfl | hm
      · exact ⟨next, [], c, cs, rfl, rfl⟩
      · exact hrest hm
    · exact hrest hm

theorem leaves_of_mem_ofChildren {next outer : Nat} {before : Option Nat} {cs : List ParseNode}
    {m : Node} {t : Token} (hm : m ∈ ofChildren next outer before cs) :
    (ParseNode.node t cs).leaves = leavesAll cs := by
  cases cs with
  | nil => simp [ofChildren] at hm
  | cons c cs => exact leaves_node_cons t c cs

/-- From a list of children each of them stands among the leaves of the whole. -/
theorem stands_of_mem_ofChildren {floor ceiling next outer : Nat} {cs : List ParseNode} {m : Node}
    (hcs : nestedAll source floor ceiling cs = true) (houter : outer ≤ floor)
    (hboundary : source.isBoundary outer = true)
    (hall : ∀ t ∈ all, t ∈ leavesAll cs ∨ t.stop ≤ floor ∨ ceiling ≤ t.start)
    (hsiblings : plain → plainSiblingsAll cs = true)
    (hgap : plain → ∀ t ∈ all, t.start < t.stop → t.stop ≤ outer ∨ floor ≤ t.start)
    (hm : m ∈ ofChildren next outer none cs) :
    ∃ index c before, m = ofParse index outer before c ∧
      Stands source all plain c outer before := by
  obtain ⟨index, front, c, back, rfl, rfl⟩ := exists_split_of_mem_ofChildren hm
  obtain ⟨hfront, hfloor, hceiling, hc, hback⟩ := nestedAll_split hcs
  have hforward := (token_span hc).1
  have hlast (last : ParseNode) (h : front.getLast? = some last) :
      floor ≤ last.token.stop ∧ last.token.stop ≤ c.token.start ∧
        source.isBoundary last.token.stop = true := by
    obtain ⟨hlow, hbefore, hnested⟩ := hfront last (List.mem_of_getLast? h)
    have hspan := token_span hnested
    exact ⟨by omega, hbefore, hspan.2.2⟩
  have hbeside : ∀ t ∈ all, t ∈ c.leaves ∨
      (∃ last, front.getLast? = some last ∧ t.stop ≤ last.token.stop) ∨ t.stop ≤ floor ∨
      c.token.stop ≤ t.start := by
    intro t ht
    rcases hall t ht with ht | ht | ht
    · exact (leaf_beside hcs ht).imp_right (·.imp_right .inr)
    · exact .inr (.inr (.inl ht))
    · exact .inr (.inr (.inr (by omega)))
  refine ⟨index, c, _, rfl, hc, by omega, hboundary, ?_, ?_, ?_, ?_⟩
  · intro b hb
    rw [Option.or_none, Option.map_eq_some_iff] at hb
    obtain ⟨last, hb, rfl⟩ := hb
    exact (hlast last hb).2
  · intro t ht
    rcases hbeside t ht with ht | ⟨last, hb, ht⟩ | ht | ht
    · exact .inl ht
    · exact .inr (.inl (Nat.le_trans ht (hlast last hb).2.1))
    · exact .inr (.inl (by omega))
    · exact .inr (.inr ht)
  · exact fun hplain => plainSiblings_of_mem (hsiblings hplain) (by simp)
  · intro hplain t ht hwidth
    rw [Option.or_none]
    rcases hbeside t ht with hown | ⟨last, hb, hstop⟩ | hout | hbehind
    · exact .inr (leaf_within hc hown).1
    · rw [hb]
      exact .inl hstop
    · cases hb : front.getLast? with
      | none =>
        -- the first child starts at the first leaf of its parent
        rcases hgap hplain t ht hwidth with hgap | hgap
        · exact .inl hgap
        · omega
      | some last => exact .inl (Nat.le_trans hout (hlast last hb).1)
    · exact .inr (by omega)

/-- With a node its children stand among the leaves. -/
theorem stands_of_mem_children {n : ParseNode} {index outer : Nat} {before : Option Nat}
    {m : Node} (h : Stands source all plain n outer before)
    (hm : m ∈ (ofParse index outer before n).children) :
    ∃ index c outer before, m = ofParse index outer before c ∧
      Stands source all plain c outer before := by
  have hfull := fullStart_ofParse h.nested h.outer_le h.outer_boundary h.before_spec
  cases n with
  | node t cs =>
    have hcs := (nested_node h.nested).2
    rw [ofParse] at hm
    have hapart := h.apart
    rw [leaves_of_mem_ofChildren hm] at hapart
    have hgap : plain → ∀ leaf ∈ all, leaf.start < leaf.stop →
        leaf.stop ≤ (t.previous.getD before).getD outer ∨ t.start ≤ leaf.start := by
      intro hplain
      rw [(plainSiblings_node (h.siblings hplain)).1]
      exact h.gap hplain
    obtain ⟨index, c, before, hmc, hc⟩ := stands_of_mem_ofChildren hcs hfull.1 hfull.2 hapart
      (fun hplain => (plainSiblings_node (h.siblings hplain)).2) hgap hm
    exact ⟨index, c, _, before, hmc, hc⟩

end Node

/-- The offsets of a label that do not fall within the token. With `plain` siblings the token is not
between the end of the token before the node and the node either. -/
structure Label.Spares (plain : Prop) (l : Label) (t : Token) : Prop where
  start : t.Spares l.start
  stop : t.Spares l.stop
  firstTokenEnd : t.Spares l.firstTokenEnd
  gap : plain → t.start < t.stop → t.stop ≤ l.fullStart ∨ l.start ≤ t.start

/-- What is known of a label of a tree by where its node stands among the leaves. -/
structure Label.Among (source : Text) (all : List Token) (plain : Prop) (l : Label) : Prop where
  sound : l.Sound source
  spares : ∀ t ∈ all, l.Spares plain t

namespace ParseNode
variable {source : Text} {all : List Token} {plain : Prop} {n : ParseNode} {outer index : Nat}
  {before : Option Nat}

theorem Stands.among (h : Stands source all plain n outer before) :
    (Node.ofParse index outer before n).label.Among source all plain := by
  have hsound := Node.label_sound_ofParse index h.nested h.outer_le h.outer_boundary
    h.before_spec
  have hspan := token_span h.nested
  have hends := endsWithin_contentEnd h.nested
  refine ⟨hsound, fun t ht => ?_⟩
  have hown {t : Token} (ht : t ∈ n.leaves) : t.Spares n.token.start :=
    .inr (leaf_within h.nested ht).1
  have hstart := h.spares (Nat.le_refl _) hspan.1 (fun _ => hown) ht
  have hstop := h.spares hends.start_le hends.le_stop (fun _ => spares_contentEnd h.nested) ht
  have hfirst := h.spares (le_firstTokenEnd h.nested) (firstTokenEnd_le h.nested)
    (fun _ => spares_firstTokenEnd h.nested) ht
  refine ⟨?_, ?_, ?_, fun hplain hwidth => ?_⟩
  all_goals cases n
  · exact hstart
  · exact hstop
  · exact hfirst
  · have hprevious := (plainSiblings_node (h.siblings hplain)).1
    have hgap := h.gap hplain t ht hwidth
    simpa only [Node.ofParse, Node.label, hprevious, Option.getD_none, token] using hgap

end ParseNode

namespace Tree
open ParseNode
variable {source : Text} {parse : Parse}

theorem among_root {plain : Prop} (h : parse.root.nested source = true) :
    (ofParse source parse).root.label.Among source parse.root.leaves plain := by
  refine ⟨label_sound_root parse h, fun t ht => ⟨.inr (Nat.zero_le _), .inl ?_, ?_, ?_⟩⟩
  · exact Nat.le_trans (leaf_within h ht).2.2 (Text.le_size_of_isBoundary (token_span h).2.2)
  · exact spares_firstTokenEnd h ht
  · exact fun _ _ => .inr (Nat.zero_le _)

theorem stands_of_mem_root {plain : Prop} {m : Node} (h : parse.root.nested source = true)
    (hplain : plain → parse.root.plainSiblings = true)
    (hm : m ∈ (ofParse source parse).root.children) :
    ∃ index c outer before, m = Node.ofParse index outer before c ∧
      Stands source parse.root.leaves plain c outer before := by
  obtain ⟨⟨t, cs⟩, hasErrors⟩ := parse
  have hall : ∀ leaf ∈ (node t cs).leaves,
      leaf ∈ leavesAll cs ∨ leaf.stop ≤ t.start ∨ t.stop ≤ leaf.start :=
    fun leaf hleaf => .inl (Node.leaves_of_mem_ofChildren (t := t) hm ▸ hleaf)
  have hgap : plain → ∀ leaf ∈ (node t cs).leaves, leaf.start < leaf.stop →
      leaf.stop ≤ 0 ∨ t.start ≤ leaf.start := fun _ leaf hleaf _ => .inr (leaf_within h hleaf).1
  obtain ⟨index, c, before, hmc, hc⟩ := Node.stands_of_mem_ofChildren (nested_node h).2
    (Nat.zero_le _) (by simp) hall (fun h => (plainSiblings_node (hplain h)).2) hgap hm
  exact ⟨index, c, 0, before, hmc, hc⟩

/-- The offsets that a tree keeps of its nodes are boundaries of the text, none of them within a
leaf of the parse. -/
theorem among_ofParse {p : Place} (h : parse.root.nested source = true)
    (hp : p ∈ (ofParse source parse).places) :
    p.label.Among source parse.root.leaves (parse.root.plainSiblings = true) := by
  -- below the root every node is one of the parser, with its place among the leaves
  let S : Place → Prop := fun p => p = (ofParse source parse).rootPlace ∨
    ∃ index n outer before, p.node = Node.ofParse index outer before n ∧
      Stands source parse.root.leaves (parse.root.plainSiblings = true) n outer before
  have hS : S p := by
    refine forall_mem_places (S := S) (fun {p c} hS hc => ?_) (.inl rfl) hp
    rcases hS with rfl | ⟨index, n, outer, before, hn, hstands⟩
    · exact .inr (stands_of_mem_root h id hc)
    · exact .inr (Node.stands_of_mem_children hstands (hn ▸ hc))
  rcases hS with rfl | ⟨index, n, outer, before, hn, hstands⟩
  · exact among_root h
  · rw [Place.label, hn]
    exact hstands.among

theorem labelsSound_ofParse (h : parse.root.nested source = true) :
    (ofParse source parse).LabelsSound := fun _ hp => (among_ofParse h hp).sound

end Tree
end LogProbe
