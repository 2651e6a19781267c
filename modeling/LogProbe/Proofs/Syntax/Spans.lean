import LogProbe.Proofs.Text.Cut
import LogProbe.Syntax.Tree
import Mathlib.Logic.Basic

/-! Where the nodes of a text stand. Parsers return nodes that nest and follow each other in order;
with that, every span and offset that a tree keeps lies between two boundaries of the text, and the
nodes of the tree are in order too. -/
namespace LogProbe

/-- Patterns that give what they bind a default value. -/
def Kind.hasDefault : Kind → Bool
  | .assignmentPattern | .objectAssignmentPattern => true
  | _ => false

/-- A token runs forward between two boundaries, and the sibling before it ends before it. -/
def Token.wellPlaced (source : Text) (t : Token) : Bool :=
  t.start ≤ t.stop && source.isBoundary t.start && source.isBoundary t.stop &&
    match t.previous with
    | some (some before) => before ≤ t.start && source.isBoundary before
    | _ => true

namespace ParseNode

/-- A pattern with a default value has content, and what it binds ends no later than it does. -/
def bindsFirst (n : ParseNode) : Bool :=
  !(Kind.ofGrammar n.token.kind).hasDefault ||
    (n.token.start < n.token.stop &&
      n.children.all fun c =>
        c.token.field.bind Field.ofGrammar? != some .left || c.contentEnd ≤ n.contentEnd)

theorem bindsFirst_left {n : ParseNode} (h : n.bindsFirst = true)
    (hkind : (Kind.ofGrammar n.token.kind).hasDefault = true) :
    n.token.start < n.token.stop ∧ ∀ c ∈ n.children,
      c.token.field.bind Field.ofGrammar? = some .left → c.contentEnd ≤ n.contentEnd := by
  simp only [bindsFirst, hkind, Bool.not_true, Bool.false_or, Bool.and_eq_true, decide_eq_true_eq,
    List.all_eq_true, Bool.or_eq_true, bne_iff_ne] at h
  exact ⟨h.1, fun c hc hfield => (h.2 c hc).resolve_left (absurd hfield)⟩

mutual
/-- Nodes run forward, lie within the span of their parent and after the sibling before them. -/
def spansNest : ParseNode → Bool
  | .node t cs => t.start ≤ t.stop && spansNestAll t.start t.stop cs

def spansNestAll (floor ceiling : Nat) : List ParseNode → Bool
  | [] => true
  | c :: cs =>
    floor ≤ c.token.start && c.token.stop ≤ ceiling && c.spansNest &&
      spansNestAll c.token.stop ceiling cs
end

mutual
/-- What parsers promise of a tree: nodes lie within the span of their parent and after the sibling
before them. -/
def wellPlaced (source : Text) : ParseNode → Bool
  | .node t cs =>
    t.wellPlaced source && bindsFirst (.node t cs) && wellPlacedAll source t.start t.stop cs

def wellPlacedAll (source : Text) (floor ceiling : Nat) : List ParseNode → Bool
  | [] => true
  | c :: cs =>
    floor ≤ c.token.start && c.token.stop ≤ ceiling && c.wellPlaced source &&
      wellPlacedAll source c.token.stop ceiling cs
end

/-- A pattern with a default value is written as grammars have it: behind what it binds stands an
equals sign. Parsers that repair a text leave out other tokens, but put no empty one in the middle of
a rule, so there is something of the sign. -/
def hasSign (n : ParseNode) : Bool :=
  !(Kind.ofGrammar n.token.kind).hasDefault ||
    n.children.any fun sign =>
      sign.token.kind == "=" && sign.token.start < sign.token.stop &&
        n.children.all fun c =>
          c.token.field.bind Field.ofGrammar? != some .left || c.token.stop ≤ sign.token.start

mutual
/-- All patterns with default values have their sign. -/
def signsDefaults : ParseNode → Bool
  | .node t cs => hasSign (.node t cs) && signsDefaultsAll cs

def signsDefaultsAll : List ParseNode → Bool
  | [] => true
  | c :: cs => c.signsDefaults && signsDefaultsAll cs
end

mutual
/-- The same of the places of all nodes alone, whatever their kinds. -/
def nested (source : Text) : ParseNode → Bool
  | .node t cs => t.wellPlaced source && nestedAll source t.start t.stop cs

def nestedAll (source : Text) (floor ceiling : Nat) : List ParseNode → Bool
  | [] => true
  | c :: cs =>
    floor ≤ c.token.start && c.token.stop ≤ ceiling && c.nested source &&
      nestedAll source c.token.stop ceiling cs
end

variable {source : Text}

theorem wellPlaced_node {t : Token} {cs : List ParseNode}
    (h : (node t cs).wellPlaced source = true) :
    t.wellPlaced source = true ∧ bindsFirst (node t cs) = true ∧
      wellPlacedAll source t.start t.stop cs = true := by
  rw [wellPlaced] at h
  simpa only [Bool.and_eq_true, and_assoc] using h

theorem wellPlacedAll_cons {floor ceiling : Nat} {c : ParseNode} {cs : List ParseNode}
    (h : wellPlacedAll source floor ceiling (c :: cs) = true) :
    floor ≤ c.token.start ∧ c.token.stop ≤ ceiling ∧ c.wellPlaced source = true ∧
      wellPlacedAll source c.token.stop ceiling cs = true := by
  rw [wellPlacedAll] at h
  simpa only [Bool.and_eq_true, decide_eq_true_eq, and_assoc] using h

theorem nested_node {t : Token} {cs : List ParseNode} (h : (node t cs).nested source = true) :
    t.wellPlaced source = true ∧ nestedAll source t.start t.stop cs = true := by
  rw [nested] at h
  simpa only [Bool.and_eq_true] using h

theorem nestedAll_cons {floor ceiling : Nat} {c : ParseNode} {cs : List ParseNode}
    (h : nestedAll source floor ceiling (c :: cs) = true) :
    floor ≤ c.token.start ∧ c.token.stop ≤ ceiling ∧ c.nested source = true ∧
      nestedAll source c.token.stop ceiling cs = true := by
  rw [nestedAll] at h
  simpa only [Bool.and_eq_true, decide_eq_true_eq, and_assoc] using h

mutual

theorem nested_of_wellPlaced : ∀ {n : ParseNode}, n.wellPlaced source = true →
    n.nested source = true
  | .node t cs, h => by
    obtain ⟨ht, -, hcs⟩ := wellPlaced_node h
    rw [nested, ht, nestedAll_of_wellPlacedAll hcs]
    rfl

theorem nestedAll_of_wellPlacedAll : ∀ {floor ceiling : Nat} {cs : List ParseNode},
    wellPlacedAll source floor ceiling cs = true → nestedAll source floor ceiling cs = true
  | _, _, [], _ => rfl
  | _, _, c :: cs, h => by
    obtain ⟨hfloor, hceiling, hc, hcs⟩ := wellPlacedAll_cons h
    rw [nestedAll, nested_of_wellPlaced hc, nestedAll_of_wellPlacedAll hcs]
    simp [hfloor, hceiling]

end

theorem spansNest_node {t : Token} {cs : List ParseNode} (h : (node t cs).spansNest = true) :
    t.start ≤ t.stop ∧ spansNestAll t.start t.stop cs = true := by
  rw [spansNest] at h
  simpa only [Bool.and_eq_true, decide_eq_true_eq] using h

theorem spansNestAll_cons {floor ceiling : Nat} {c : ParseNode} {cs : List ParseNode}
    (h : spansNestAll floor ceiling (c :: cs) = true) :
    floor ≤ c.token.start ∧ c.token.stop ≤ ceiling ∧ c.spansNest = true ∧
      spansNestAll c.token.stop ceiling cs = true := by
  rw [spansNestAll] at h
  simpa only [Bool.and_eq_true, decide_eq_true_eq, and_assoc] using h

mutual

theorem spansNest_of_nested : ∀ {n : ParseNode}, n.nested source = true → n.spansNest = true
  | .node t cs, h => by
    obtain ⟨ht, hcs⟩ := nested_node h
    simp only [Token.wellPlaced, Bool.and_eq_true, decide_eq_true_eq] at ht
    rw [spansNest, spansNestAll_of_nestedAll hcs]
    simp [ht.1.1.1]

theorem spansNestAll_of_nestedAll : ∀ {floor ceiling : Nat} {cs : List ParseNode},
    nestedAll source floor ceiling cs = true → spansNestAll floor ceiling cs = true
  | _, _, [], _ => rfl
  | _, _, c :: cs, h => by
    obtain ⟨hfloor, hceiling, hc, hcs⟩ := nestedAll_cons h
    rw [spansNestAll, spansNest_of_nested hc, spansNestAll_of_nestedAll hcs]
    simp [hfloor, hceiling]

end

theorem start_le_stop {n : ParseNode} (h : n.spansNest = true) : n.token.start ≤ n.token.stop := by
  cases n
  exact (spansNest_node h).1

mutual

/-- The end of what a node holds lies within it, and past its start unless the node is empty. -/
theorem contentEnd_within : ∀ {n : ParseNode}, n.spansNest = true →
    n.token.start ≤ n.contentEnd ∧ n.contentEnd ≤ n.token.stop ∧
      (n.token.start < n.token.stop → n.token.start < n.contentEnd)
  | .node t cs, h => by
    obtain ⟨hforward, hcs⟩ := spansNest_node h
    rw [contentEnd]
    cases hlast : lastContentEnd? cs with
    | none => exact ⟨hforward, Nat.le_refl _, id⟩
    | some finish =>
      obtain ⟨hlow, hhigh⟩ := lastContentEnd?_between hcs hlast
      exact ⟨Nat.le_of_lt hlow, hhigh, fun _ => hlow⟩

theorem lastContentEnd?_between : ∀ {floor ceiling finish : Nat} {cs : List ParseNode},
    spansNestAll floor ceiling cs = true → lastContentEnd? cs = some finish →
      floor < finish ∧ finish ≤ ceiling
  | _, _, _, [], _, hlast => by simp [lastContentEnd?] at hlast
  | _, _, _, c :: cs, h, hlast => by
    obtain ⟨hfloor, hceiling, hc, hcs⟩ := spansNestAll_cons h
    have hforward := start_le_stop hc
    rw [lastContentEnd?] at hlast
    cases hrest : lastContentEnd? cs with
    | some finish' =>
      obtain ⟨hlow, hhigh⟩ := lastContentEnd?_between hcs hrest
      rw [hrest] at hlast
      cases hlast
      exact ⟨by omega, hhigh⟩
    | none =>
      rw [hrest] at hlast
      by_cases hcontent : c.isContent = true
      · simp only [hcontent, if_true, Option.some.injEq] at hlast
        subst hlast
        obtain ⟨-, hhigh, hlow⟩ := contentEnd_within hc
        simp only [isContent, Bool.and_eq_true, decide_eq_true_eq] at hcontent
        have hlow := hlow hcontent.2
        exact ⟨by omega, by omega⟩
      · simp [hcontent] at hlast

end

/-- The content of a node does not end before that of a child. -/
theorem contentEnd_le_last {floor ceiling : Nat} {cs : List ParseNode} {c : ParseNode}
    (h : spansNestAll floor ceiling cs = true) (hc : c ∈ cs) (hcontent : c.isContent = true) :
    ∃ finish, lastContentEnd? cs = some finish ∧ c.contentEnd ≤ finish := by
  induction cs generalizing floor with
  | nil => cases hc
  | cons d cs ih =>
    obtain ⟨-, -, hd, hcs⟩ := spansNestAll_cons h
    rw [lastContentEnd?]
    rcases List.mem_cons.mp hc with rfl | hc
    · cases hrest : lastContentEnd? cs with
      | some finish =>
        have hlow := (lastContentEnd?_between hcs hrest).1
        have hstop := (contentEnd_within hd).2.1
        exact ⟨finish, rfl, by omega⟩
      | none => exact ⟨c.contentEnd, by simp [hcontent], Nat.le_refl _⟩
    · obtain ⟨finish, hrest, hle⟩ := ih hcs hc
      exact ⟨finish, by rw [hrest], hle⟩

/-- The children of a list of nodes, each with the room that it has. -/
theorem mem_spansNestAll {floor ceiling : Nat} {cs : List ParseNode} {c : ParseNode}
    (h : spansNestAll floor ceiling cs = true) (hc : c ∈ cs) :
    floor ≤ c.token.start ∧ c.token.stop ≤ ceiling ∧ c.spansNest = true := by
  induction cs generalizing floor with
  | nil => cases hc
  | cons d cs ih =>
    obtain ⟨hfloor, hceiling, hd, hcs⟩ := spansNestAll_cons h
    rcases List.mem_cons.mp hc with rfl | hc
    · exact ⟨hfloor, hceiling, hd⟩
    · obtain ⟨hlow, hhigh, hspans⟩ := ih hcs hc
      have hforward := start_le_stop hd
      exact ⟨by omega, hhigh, hspans⟩

/-- The end of what a node holds is a boundary within it. -/
structure EndsWithin (source : Text) (start stop finish : Nat) : Prop where
  start_le : start ≤ finish
  le_stop : finish ≤ stop
  boundary : source.isBoundary finish = true
  start_lt : start < stop → start < finish

theorem token_span {n : ParseNode} (h : n.nested source = true) :
    n.token.start ≤ n.token.stop ∧ source.isBoundary n.token.start = true ∧
      source.isBoundary n.token.stop = true := by
  cases n with
  | node t cs =>
    have ht := (nested_node h).1
    simp only [Token.wellPlaced, Bool.and_eq_true, decide_eq_true_eq] at ht
    exact ⟨ht.1.1.1, ht.1.1.2, ht.1.2⟩

theorem token_previous {n : ParseNode} {before : Nat} (h : n.nested source = true)
    (hb : n.token.previous = some (some before)) :
    before ≤ n.token.start ∧ source.isBoundary before = true := by
  cases n with
  | node t cs =>
    have ht := (nested_node h).1
    change t.previous = some (some before) at hb
    simp only [Token.wellPlaced, hb, Bool.and_eq_true, decide_eq_true_eq] at ht
    exact ht.2

mutual

theorem isBoundary_contentEnd : ∀ {n : ParseNode}, n.nested source = true →
    source.isBoundary n.contentEnd = true
  | .node t cs, h => by
    rw [contentEnd]
    cases hlast : lastContentEnd? cs with
    | none => exact (token_span h).2.2
    | some finish => exact isBoundary_lastContentEnd? (nested_node h).2 hlast

theorem isBoundary_lastContentEnd? : ∀ {floor ceiling finish : Nat} {cs : List ParseNode},
    nestedAll source floor ceiling cs = true → lastContentEnd? cs = some finish →
      source.isBoundary finish = true
  | _, _, _, [], _, hlast => by simp [lastContentEnd?] at hlast
  | _, _, _, c :: cs, h, hlast => by
    obtain ⟨-, -, hc, hcs⟩ := nestedAll_cons h
    rw [lastContentEnd?] at hlast
    split at hlast
    · rename_i hrest
      cases hlast
      exact isBoundary_lastContentEnd? hcs hrest
    · split at hlast
      · cases hlast
        exact isBoundary_contentEnd hc
      · cases hlast

end

theorem endsWithin_contentEnd {n : ParseNode} (h : n.nested source = true) :
    EndsWithin source n.token.start n.token.stop n.contentEnd := by
  obtain ⟨hlow, hhigh, hlt⟩ := contentEnd_within (spansNest_of_nested h)
  exact ⟨hlow, hhigh, isBoundary_contentEnd h, hlt⟩

theorem lastContentEnd?_within {floor ceiling finish : Nat} {cs : List ParseNode}
    (h : nestedAll source floor ceiling cs = true) (hlast : lastContentEnd? cs = some finish) :
    floor < finish ∧ finish ≤ ceiling ∧ source.isBoundary finish = true := by
  obtain ⟨hlow, hhigh⟩ := lastContentEnd?_between (spansNestAll_of_nestedAll h) hlast
  exact ⟨hlow, hhigh, isBoundary_lastContentEnd? h hlast⟩

theorem bindsFirst_of_hasSign {t : Token} {cs : List ParseNode}
    (h : (node t cs).nested source = true) (hsign : hasSign (node t cs) = true) :
    bindsFirst (node t cs) = true := by
  have hnested := (nested_node h).2
  have hspans := spansNestAll_of_nestedAll hnested
  rw [hasSign, Bool.or_eq_true] at hsign
  rw [bindsFirst, Bool.or_eq_true]
  refine hsign.imp_right fun hsome => ?_
  obtain ⟨sign, hmem, hsome⟩ := List.any_eq_true.mp hsome
  simp only [Bool.and_eq_true, beq_iff_eq, decide_eq_true_eq, List.all_eq_true, Bool.or_eq_true,
    bne_iff_ne] at hsome ⊢
  obtain ⟨⟨hkind, hwidth⟩, hleft⟩ := hsome
  have hmem : sign ∈ cs := hmem
  have hcontent : sign.isContent = true := by simp [isContent, isComment, hkind, hwidth]
  obtain ⟨hfloor, hceiling, hinside⟩ := mem_spansNestAll hspans hmem
  obtain ⟨finish, hlast, hfinish⟩ := contentEnd_le_last hspans hmem hcontent
  have hend : (node t cs).contentEnd = finish := by
    rw [contentEnd, hlast]
    rfl
  refine ⟨Nat.lt_of_le_of_lt hfloor (Nat.lt_of_lt_of_le hwidth hceiling), fun c hc => ?_⟩
  refine (hleft c hc).imp_right fun hbefore => ?_
  have hbound := (contentEnd_within (mem_spansNestAll hspans hc).2.2).2.1
  have hstart := (contentEnd_within hinside).1
  rw [hend]
  omega

mutual

/-- Nodes that nest and patterns that have their signs are all that is asked for. -/
theorem wellPlaced_of_nested : ∀ {n : ParseNode}, n.nested source = true →
    n.signsDefaults = true → n.wellPlaced source = true
  | .node t cs, h, hsigns => by
    obtain ⟨ht, hcs⟩ := nested_node h
    rw [signsDefaults, Bool.and_eq_true] at hsigns
    rw [wellPlaced, ht, bindsFirst_of_hasSign h hsigns.1, wellPlacedAll_of_nestedAll hcs hsigns.2]
    rfl

theorem wellPlacedAll_of_nestedAll : ∀ {floor ceiling : Nat} {cs : List ParseNode},
    nestedAll source floor ceiling cs = true → signsDefaultsAll cs = true →
      wellPlacedAll source floor ceiling cs = true
  | _, _, [], _, _ => rfl
  | _, _, c :: cs, h, hsigns => by
    obtain ⟨hfloor, hceiling, hc, hcs⟩ := nestedAll_cons h
    rw [signsDefaultsAll, Bool.and_eq_true] at hsigns
    rw [wellPlacedAll, wellPlaced_of_nested hc hsigns.1, wellPlacedAll_of_nestedAll hcs hsigns.2]
    simp [hfloor, hceiling]

end

theorem isBoundary_firstTokenEnd : ∀ {n : ParseNode}, n.nested source = true →
    source.isBoundary n.firstTokenEnd = true
  | .node _ [], h => (token_span h).2.2
  | .node _ (_ :: _), h => by
    rw [firstTokenEnd]
    exact isBoundary_firstTokenEnd (nestedAll_cons (nested_node h).2).2.2.1

theorem mem_nestedAll {floor ceiling : Nat} {cs : List ParseNode} {c : ParseNode}
    (h : nestedAll source floor ceiling cs = true) (hc : c ∈ cs) :
    floor ≤ c.token.start ∧ c.token.stop ≤ ceiling ∧ c.nested source = true := by
  obtain ⟨hlow, hhigh, -⟩ := mem_spansNestAll (spansNestAll_of_nestedAll h) hc
  refine ⟨hlow, hhigh, ?_⟩
  induction cs generalizing floor with
  | nil => cases hc
  | cons d cs ih =>
    obtain ⟨-, -, hd, hcs⟩ := nestedAll_cons h
    rcases List.mem_cons.mp hc with rfl | hc
    · exact hd
    · exact ih hcs hc (mem_spansNestAll (spansNestAll_of_nestedAll hcs) hc).1

end ParseNode

/-- All offsets of a node are boundaries, and its spans run forward. -/
structure Label.Sound (source : Text) (l : Label) : Prop where
  fullStart_le : l.fullStart ≤ l.start
  start_le : l.start ≤ l.stop
  fullStart_boundary : source.isBoundary l.fullStart = true
  start_boundary : source.isBoundary l.start = true
  stop_boundary : source.isBoundary l.stop = true
  firstTokenEnd_boundary : source.isBoundary l.firstTokenEnd = true

theorem Label.Sound.text {source : Text} {l : Label} (h : l.Sound source) :
    ∃ t, source.slice? l.start l.stop = some t :=
  Option.isSome_iff_exists.mp
    (Text.isSome_slice?_iff.mpr ⟨h.start_le, h.start_boundary, h.stop_boundary⟩)

namespace Node
open ParseNode

/-- The offsets of a node and of all nodes below it are sound. Children follow each other in order;
those with content lie within their parent, and so does what a default value stands for. -/
inductive Sound (source : Text) : Node → Prop
  | node {l : Label} {cs : List Node} (label : l.Sound source) (below : ∀ c ∈ cs, Sound source c)
      (ordered : cs.Pairwise fun a b => a.label.stop ≤ b.label.start)
      (inside : ∀ c ∈ cs, l.start ≤ c.label.start ∧
        (c.label.start < c.label.stop → c.label.stop ≤ l.stop))
      (bound : l.kind.hasDefault = true →
        l.start < l.stop ∧ ∀ c ∈ cs, c.field = some .left → c.label.stop ≤ l.stop) :
      Sound source (.node l cs)

variable {source : Text}

theorem Sound.label_sound {n : Node} (h : n.Sound source) : n.label.Sound source := by
  cases h with
  | node label => exact label

theorem Sound.of_mem {n c : Node} (h : n.Sound source) (hc : c ∈ n.children) : c.Sound source := by
  cases h with
  | node _ below => exact below c hc

theorem Sound.text {n : Node} (h : n.Sound source) : ∃ t, n.text? source = some t :=
  h.label_sound.text

/-- A node keeps the start of the parser's node and the end of what that holds. -/
theorem mem_ofChildren {next outer : Nat} {before : Option Nat} {cs : List ParseNode} {n : Node}
    (hn : n ∈ ofChildren next outer before cs) :
    ∃ c ∈ cs, c.isStructural = true ∧ n.label.start = c.token.start ∧
      n.label.stop = c.contentEnd ∧ n.field = c.token.field.bind Field.ofGrammar? := by
  induction cs generalizing next before with
  | nil => simp [ofChildren] at hn
  | cons c cs ih =>
    rw [ofChildren] at hn
    split at hn
    · rename_i hc
      rcases List.mem_cons.mp hn with rfl | hn
      · refine ⟨c, by simp, hc, ?_⟩
        cases c
        simp only [ofParse, label, field, token, and_self]
      · obtain ⟨d, hd, hnode⟩ := ih hn
        exact ⟨d, by simp [hd], hnode⟩
    · obtain ⟨d, hd, hnode⟩ := ih hn
      exact ⟨d, by simp [hd], hnode⟩

theorem ordered_ofChildren {floor ceiling next outer : Nat} {before : Option Nat}
    {cs : List ParseNode} (h : spansNestAll floor ceiling cs = true) :
    (ofChildren next outer before cs).Pairwise fun a b => a.label.stop ≤ b.label.start := by
  induction cs generalizing floor next before with
  | nil => simp [ofChildren]
  | cons c cs ih =>
    obtain ⟨-, -, hc, hcs⟩ := spansNestAll_cons h
    rw [ofChildren]
    split
    · refine List.pairwise_cons.mpr ⟨?_, ih hcs⟩
      intro n hn
      obtain ⟨d, hd, -, hstart, -⟩ := mem_ofChildren hn
      have hroom := (mem_spansNestAll hcs hd).1
      have hstop := (contentEnd_within hc).2.1
      have hends : (ofParse next outer before c).label.stop = c.contentEnd := by
        cases c
        rw [ofParse]
        rfl
      omega
    · exact ih hcs

/-- A child with content ends no later than what the children hold. -/
theorem within_of_mem_ofChildren {floor ceiling next outer : Nat} {before : Option Nat}
    {cs : List ParseNode} {n : Node} (h : spansNestAll floor ceiling cs = true)
    (hn : n ∈ ofChildren next outer before cs) :
    floor ≤ n.label.start ∧ (n.label.start < n.label.stop →
      ∃ finish, lastContentEnd? cs = some finish ∧ n.label.stop ≤ finish) := by
  obtain ⟨c, hc, hstructural, hnstart, hnstop, -⟩ := mem_ofChildren hn
  obtain ⟨hfloor, -, hspans⟩ := mem_spansNestAll h hc
  refine ⟨by omega, fun hwidth => ?_⟩
  have hle := (contentEnd_within hspans).2.1
  have hcontent : c.isContent = true := by
    simp only [isStructural, Bool.and_eq_true] at hstructural
    simp only [isContent, hstructural.2, Bool.true_and, decide_eq_true_eq]
    omega
  rw [hnstop]
  exact contentEnd_le_last h hc hcontent

/-- A node over the children of a parser's node is sound when it starts no later and ends no earlier
than what they hold. -/
theorem sound_of_children {l : Label} {floor ceiling next outer : Nat} {cs : List ParseNode}
    (hl : l.Sound source) (h : nestedAll source floor ceiling cs = true)
    (hstart : l.start ≤ floor)
    (hstop : ∀ finish, lastContentEnd? cs = some finish → finish ≤ l.stop)
    (hbound : l.kind.hasDefault = true → l.start < l.stop ∧
      ∀ c ∈ cs, c.token.field.bind Field.ofGrammar? = some .left → c.contentEnd ≤ l.stop)
    (hbelow : ∀ n ∈ ofChildren next outer none cs, n.Sound source) :
    (Node.node l (ofChildren next outer none cs)).Sound source := by
  have hspans := spansNestAll_of_nestedAll h
  refine .node hl hbelow (ordered_ofChildren hspans) ?_ ?_
  · intro n hn
    obtain ⟨hfloor, hwithin⟩ := within_of_mem_ofChildren hspans hn
    refine ⟨by omega, fun hwidth => ?_⟩
    obtain ⟨finish, hlast, hfinish⟩ := hwithin hwidth
    have := hstop finish hlast
    omega
  · intro hkind
    obtain ⟨hwidth, hleft⟩ := hbound hkind
    refine ⟨hwidth, fun n hn hfield => ?_⟩
    obtain ⟨c, hc, -, -, hnstop, hnfield⟩ := mem_ofChildren hn
    rw [hnstop]
    exact hleft c hc (hnfield ▸ hfield)

/-- Where the token before a node ends. -/
theorem fullStart_ofParse {n : ParseNode} {outer : Nat} {before : Option Nat}
    (h : n.nested source = true) (houter : outer ≤ n.token.start)
    (hboundary : source.isBoundary outer = true)
    (hbefore : ∀ b, before = some b → b ≤ n.token.start ∧ source.isBoundary b = true) :
    (n.token.previous.getD before).getD outer ≤ n.token.start ∧
      source.isBoundary ((n.token.previous.getD before).getD outer) = true := by
  cases hprevious : n.token.previous with
  | none =>
    cases before with
    | none => exact ⟨houter, hboundary⟩
    | some b => exact hbefore b rfl
  | some previous =>
    cases previous with
    | none => exact ⟨houter, hboundary⟩
    | some b => exact token_previous h hprevious

theorem label_sound_ofParse {n : ParseNode} {outer : Nat} {before : Option Nat} (index : Nat)
    (h : n.nested source = true) (houter : outer ≤ n.token.start)
    (hboundary : source.isBoundary outer = true)
    (hbefore : ∀ b, before = some b → b ≤ n.token.start ∧ source.isBoundary b = true) :
    (ofParse index outer before n).label.Sound source := by
  have hfull := fullStart_ofParse h houter hboundary hbefore
  have hends := endsWithin_contentEnd h
  have hfirst := isBoundary_firstTokenEnd h
  obtain ⟨-, hstart, -⟩ := token_span h
  cases n
  exact ⟨hfull.1, hends.start_le, hfull.2, hstart, hends.boundary, hfirst⟩

mutual

theorem sound_ofParse : ∀ {n : ParseNode} {index outer : Nat} {before : Option Nat},
    n.wellPlaced source = true → outer ≤ n.token.start → source.isBoundary outer = true →
    (∀ b, before = some b → b ≤ n.token.start ∧ source.isBoundary b = true) →
      (ofParse index outer before n).Sound source
  | .node t cs, index, outer, before, h, houter, hboundary, hbefore => by
    have hnested := nested_of_wellPlaced h
    obtain ⟨-, hbinds, hcs⟩ := wellPlaced_node h
    have hends := endsWithin_contentEnd hnested
    have hfull := fullStart_ofParse hnested houter hboundary hbefore
    have hlabel := label_sound_ofParse index hnested houter hboundary hbefore
    rw [ofParse] at hlabel ⊢
    refine sound_of_children hlabel (nestedAll_of_wellPlacedAll hcs) (Nat.le_refl _) ?_ ?_ ?_
    · intro finish hlast
      simp [contentEnd, hlast]
    · intro hkind
      obtain ⟨hwidth, hleft⟩ := bindsFirst_left hbinds hkind
      exact ⟨hends.start_lt hwidth, hleft⟩
    · exact sound_ofChildren hcs hfull.1 hfull.2 (by simp)

theorem sound_ofChildren : ∀ {cs : List ParseNode} {floor ceiling next outer : Nat}
    {before : Option Nat}, wellPlacedAll source floor ceiling cs = true → outer ≤ floor →
    source.isBoundary outer = true →
    (∀ b, before = some b → b ≤ floor ∧ source.isBoundary b = true) →
      ∀ n ∈ ofChildren next outer before cs, n.Sound source
  | [], _, _, _, _, _, _, _, _, _, n, hn => by simp [ofChildren] at hn
  | c :: cs, floor, _, next, outer, before, h, houter, hboundary, hbefore, n, hn => by
    obtain ⟨hfloor, -, hc, hcs⟩ := wellPlacedAll_cons h
    obtain ⟨hforward, -, hstop⟩ := token_span (nested_of_wellPlaced hc)
    have hrest : ∀ b, some c.token.stop = some b →
        b ≤ c.token.stop ∧ source.isBoundary b = true := by
      rintro b ⟨⟩
      exact ⟨Nat.le_refl _, hstop⟩
    rw [ofChildren] at hn
    split at hn
    · rcases List.mem_cons.mp hn with rfl | hn
      · refine sound_ofParse hc (by omega) hboundary fun b hb => ?_
        have hbound := hbefore b hb
        exact ⟨by omega, hbound.2⟩
      · exact sound_ofChildren hcs (by omega) hboundary hrest n hn
    · exact sound_ofChildren hcs (by omega) hboundary hrest n hn

end

end Node

theorem Tree.label_sound_root {source : Text} (parse : Parse)
    (h : parse.root.nested source = true) :
    (Tree.ofParse source parse).root.label.Sound source :=
  ⟨Nat.le_refl _, Nat.zero_le _, by simp [ofParse, Node.label], by simp [ofParse, Node.label],
    by simp [ofParse, Node.label], ParseNode.isBoundary_firstTokenEnd h⟩

/-- The tree of a text is sound where the parser returns what it promises. -/
theorem Tree.sound_ofParse {source : Text} {parse : Parse}
    (h : parse.root.wellPlaced source = true) : (Tree.ofParse source parse).root.Sound source := by
  have hnested := ParseNode.nested_of_wellPlaced h
  have hlabel := Tree.label_sound_root parse hnested
  obtain ⟨root, hasErrors⟩ := parse
  cases root with
  | node t cs =>
    obtain ⟨-, hbinds, hcs⟩ := ParseNode.wellPlaced_node h
    have hchildren := ParseNode.nestedAll_of_wellPlacedAll hcs
    refine Node.sound_of_children hlabel hchildren (Nat.zero_le _) ?_ ?_ ?_
    · intro finish hlast
      exact Text.le_size_of_isBoundary (ParseNode.lastContentEnd?_within hchildren hlast).2.2
    · intro hkind
      obtain ⟨hwidth, -⟩ := ParseNode.bindsFirst_left hbinds hkind
      refine ⟨?_, fun c hc _ => ?_⟩
      · have hstop := Text.le_size_of_isBoundary (ParseNode.token_span hnested).2.2
        exact Nat.lt_of_lt_of_le (Nat.zero_lt_of_lt hwidth) hstop
      · exact Text.le_size_of_isBoundary
          (ParseNode.endsWithin_contentEnd (ParseNode.mem_nestedAll hchildren hc).2.2).boundary
    · exact Node.sound_ofChildren hcs (Nat.zero_le _) (by simp) (by simp)

end LogProbe
