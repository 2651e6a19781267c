import LogProbe.Log.Target
import LogProbe.Proofs.Syntax.Arena
import Mathlib.Data.List.Pairwise

/-! The node of a selection. The search goes down from the root and never looks back; it ends at the
smallest node around the selection because siblings stand apart and no node leaves its parent. -/
namespace LogProbe

def Label.Contains (l : Label) (start stop : Nat) : Prop := l.start ≤ start ∧ stop ≤ l.stop

instance (l : Label) (start stop : Nat) : Decidable (l.Contains start stop) :=
  inferInstanceAs (Decidable (_ ∧ _))

theorem Label.Contains.trans {l m : Label} {start stop : Nat} (h : l.Contains m.start m.stop)
    (hm : m.Contains start stop) : l.Contains start stop :=
  ⟨Nat.le_trans h.1 hm.1, Nat.le_trans hm.2 h.2⟩

/-- A node around a range that is not empty is not empty itself. -/
theorem Label.Contains.width {l : Label} {start stop : Nat} (h : l.Contains start stop)
    (hrange : start < stop) : l.start < l.stop := by
  obtain ⟨hstart, hstop⟩ := h
  omega

namespace Node
open ParseNode Place

/-- Siblings stand apart, and a child that is not empty lies within its parent. -/
inductive Nests : Node → Prop
  | node {l : Label} {cs : List Node} (below : ∀ c ∈ cs, Nests c)
      (apart : cs.Pairwise fun a b => a.label.stop ≤ b.label.start)
      (within : ∀ c ∈ cs, c.label.start < c.label.stop → l.Contains c.label.start c.label.stop) :
      Nests (.node l cs)

theorem Nests.of_mem {n c : Node} (h : n.Nests) (hc : c ∈ n.children) : c.Nests := by
  cases h with
  | node below => exact below c hc

theorem Nests.siblings {n : Node} (h : n.Nests) :
    n.children.Pairwise fun a b => a.label.stop ≤ b.label.start := by
  cases h with
  | node _ apart => exact apart

theorem Nests.of_mem_preorder {n : Node} (h : n.Nests) {above : List Node} {q : Place}
    (hq : q ∈ preorder above n) : q.node.Nests :=
  forall_mem_preorder (S := fun q => q.node.Nests) (fun hS hc => hS.of_mem hc) h hq

/-- What is not empty lies within all nodes above it. -/
theorem Nests.within_of_mem_preorder {n : Node} (h : n.Nests) :
    ∀ {above : List Node} {q : Place}, q ∈ preorder above n → q.label.start < q.label.stop →
      n.label.Contains q.label.start q.label.stop := by
  induction h with
  | @node l cs _ _ within ih =>
    intro above q hq hwidth
    rw [preorder, List.mem_cons] at hq
    rcases hq with rfl | hq
    · exact ⟨Nat.le_refl _, Nat.le_refl _⟩
    · obtain ⟨c, hc, hq⟩ := mem_preorderAll_iff.mp hq
      have hinner : c.label.Contains q.label.start q.label.stop := ih c hc hq hwidth
      exact (within c hc (hinner.width hwidth)).trans hinner

theorem Nests.contains_of_mem_preorder {n : Node} (h : n.Nests) {above : List Node} {q : Place}
    {start stop : Nat} (hrange : start < stop) (hq : q ∈ preorder above n)
    (hcontains : q.label.Contains start stop) : n.label.Contains start stop :=
  (h.within_of_mem_preorder hq (hcontains.width hrange)).trans hcontains

mutual

theorem nests_ofParse : ∀ {n : ParseNode} {index outer : Nat} {before : Option Nat},
    n.spansNest = true → (ofParse index outer before n).Nests
  | .node t cs, index, outer, before, h => by
    have hcs := (spansNest_node h).2
    rw [ofParse]
    refine .node (nests_of_mem_ofChildren hcs) (ordered_ofChildren hcs) ?_
    intro c hc hwidth
    obtain ⟨hstart, hwithin⟩ := within_of_mem_ofChildren hcs hc
    obtain ⟨finish, hlast, hstop⟩ := hwithin hwidth
    rw [contentEnd, hlast]
    exact ⟨hstart, hstop⟩

theorem nests_of_mem_ofChildren : ∀ {cs : List ParseNode} {floor ceiling next outer : Nat}
    {before : Option Nat}, spansNestAll floor ceiling cs = true →
      ∀ n ∈ ofChildren next outer before cs, n.Nests
  | [], _, _, _, _, _, _, n, hn => by simp [ofChildren] at hn
  | c :: cs, _, _, next, outer, before, h, n, hn => by
    obtain ⟨-, -, hc, hcs⟩ := spansNestAll_cons h
    rw [ofChildren] at hn
    split at hn
    · rcases List.mem_cons.mp hn with rfl | hn
      · exact nests_ofParse hc
      · exact nests_of_mem_ofChildren hcs n hn
    · exact nests_of_mem_ofChildren hcs n hn

end

/-- Of two nodes that are not empty one is above the other, or they stand apart. -/
theorem Nests.nested_or_apart {n : Node} (h : n.Nests) :
    ∀ {above : List Node} {p q : Place}, p ∈ preorder above n → q ∈ preorder above n →
      p.label.start < p.label.stop → q.label.start < q.label.stop →
        p ∈ preorder q.above q.node ∨ q ∈ preorder p.above p.node ∨
          p.label.stop ≤ q.label.start ∨ q.label.stop ≤ p.label.start := by
  induction h with
  | @node l cs below apart _ ih =>
    intro above p q hp hq hpwidth hqwidth
    have hp' := hp
    have hq' := hq
    rw [preorder, List.mem_cons] at hp' hq'
    rcases hp' with rfl | hp'
    · exact .inr (.inl hq)
    rcases hq' with rfl | hq'
    · exact .inl hp
    obtain ⟨c, hc, hp'⟩ := mem_preorderAll_iff.mp hp'
    obtain ⟨d, hd, hq'⟩ := mem_preorderAll_iff.mp hq'
    by_cases hcd : c = d
    · subst hcd
      exact ih c hc hp' hq' hpwidth hqwidth
    · -- of two different children one ends before the other starts
      have : Std.Symm fun a b : Node =>
          a.label.stop ≤ b.label.start ∨ b.label.stop ≤ a.label.start := ⟨fun _ _ => Or.symm⟩
      have hsides : cs.Pairwise fun a b =>
          a.label.stop ≤ b.label.start ∨ b.label.stop ≤ a.label.start := apart.imp Or.inl
      have hchildren := hsides.forall hc hd hcd
      obtain ⟨hpstart, hpstop⟩ := (below c hc).within_of_mem_preorder hp' hpwidth
      obtain ⟨hqstart, hqstop⟩ := (below d hd).within_of_mem_preorder hq' hqwidth
      omega

variable {start stop : Nat}

theorem innermostAmong?_cons {above cs : List Node} {c : Node}
    (hc : c.label.Contains start stop) :
    innermostAmong? start stop above (c :: cs) =
      some ((innermost? start stop above c).getD ⟨c, above⟩) := by
  simp [innermostAmong?, hc.1, hc.2]

theorem innermostAmong?_cons_of_not {above cs : List Node} {c : Node}
    (hc : ¬ c.label.Contains start stop) :
    innermostAmong? start stop above (c :: cs) = innermostAmong? start stop above cs := by
  rw [innermostAmong?, if_neg]
  simpa [Label.Contains] using hc

theorem innermostAmong?_eq_none_iff {above cs : List Node} :
    innermostAmong? start stop above cs = none ↔ ∀ c ∈ cs, ¬ c.label.Contains start stop := by
  induction cs with
  | nil => simp [innermostAmong?]
  | cons c cs ih =>
    rw [List.forall_mem_cons]
    by_cases hc : c.label.Contains start stop
    · simp [innermostAmong?_cons hc, hc]
    · rw [innermostAmong?_cons_of_not hc, ih]
      exact (and_iff_right hc).symm

theorem innermost?_eq_none_iff {above : List Node} {n : Node} :
    n.innermost? start stop above = none ↔ ∀ c ∈ n.children, ¬ c.label.Contains start stop := by
  cases n
  rw [innermost?]
  exact innermostAmong?_eq_none_iff

mutual

/-- The search ends at a node around the range, none of whose children is. -/
theorem innermost?_eq_some {above : List Node} {p : Place} : ∀ {n : Node},
    n.innermost? start stop above = some p → p ∈ preorderAll (n :: above) n.children ∧
      p.label.Contains start stop ∧ ∀ c ∈ p.node.children, ¬ c.label.Contains start stop
  | .node l cs, h => by
    rw [innermost?] at h
    exact innermostAmong?_eq_some h

theorem innermostAmong?_eq_some {above : List Node} {p : Place} : ∀ {cs : List Node},
    innermostAmong? start stop above cs = some p → p ∈ preorderAll above cs ∧
      p.label.Contains start stop ∧ ∀ c ∈ p.node.children, ¬ c.label.Contains start stop
  | [], h => by simp [innermostAmong?] at h
  | c :: cs, h => by
    rw [preorderAll, List.mem_append]
    by_cases hc : c.label.Contains start stop
    · rw [innermostAmong?_cons hc] at h
      cases hin : c.innermost? start stop above with
      | some q =>
        obtain ⟨hq, hspec⟩ := innermost?_eq_some hin
        rw [hin] at h
        cases h
        exact ⟨.inl (preorderAll_subset_preorder hq), hspec⟩
      | none =>
        rw [hin] at h
        cases h
        exact ⟨.inl (self_mem_preorder above c), hc, innermost?_eq_none_iff.mp hin⟩
    · rw [innermostAmong?_cons_of_not hc] at h
      obtain ⟨hp, hspec⟩ := innermostAmong?_eq_some h
      exact ⟨.inr hp, hspec⟩

end

/-- Of siblings that stand apart only one is around a range that is not empty: the search goes there
whatever stands in front of it. -/
theorem innermostAmong?_of_contains {above cs : List Node} {c : Node} (hrange : start < stop)
    (hapart : cs.Pairwise fun a b => a.label.stop ≤ b.label.start) (hc : c ∈ cs)
    (hcontains : c.label.Contains start stop) :
    innermostAmong? start stop above cs =
      some ((c.innermost? start stop above).getD ⟨c, above⟩) := by
  induction cs with
  | nil => cases hc
  | cons d cs ih =>
    rw [List.pairwise_cons] at hapart
    rcases List.mem_cons.mp hc with rfl | hc
    · exact innermostAmong?_cons hcontains
    · have hbefore : d.label.stop ≤ c.label.start := hapart.1 c hc
      have hd : ¬ d.label.Contains start stop := by
        intro hd
        have hstart := hcontains.1
        have hstop := hd.2
        omega
      rw [innermostAmong?_cons_of_not hd]
      exact ih hapart.2 hc

/-- The search from a node comes through every node below it that is around the range. -/
theorem Nests.innermost?_mem_preorder {n : Node} (h : n.Nests) (hrange : start < stop) :
    ∀ {above : List Node} {q : Place}, q ∈ preorder above n → q.label.Contains start stop →
      (n.innermost? start stop above).getD ⟨n, above⟩ ∈ preorder q.above q.node := by
  induction h with
  | @node l cs below apart _ ih =>
    intro above q hq hcontains
    rw [preorder, List.mem_cons] at hq
    rcases hq with rfl | hq
    · cases hin : (Node.node l cs).innermost? start stop above with
      | none => exact self_mem_preorder above _
      | some p => exact preorderAll_subset_preorder (innermost?_eq_some hin).1
    · obtain ⟨c, hc, hq⟩ := mem_preorderAll_iff.mp hq
      have hdown := (below c hc).contains_of_mem_preorder hrange hq hcontains
      rw [innermost?, innermostAmong?_of_contains hrange apart hc hdown]
      exact ih c hc hq hcontains

/-- So every node around the range is above what the search among siblings finds, or is that. -/
theorem innermostAmong?_below {above cs : List Node} {q : Place} (hrange : start < stop)
    (hnests : ∀ c ∈ cs, c.Nests) (hapart : cs.Pairwise fun a b => a.label.stop ≤ b.label.start)
    (hq : q ∈ preorderAll above cs) (hcontains : q.label.Contains start stop) :
    ∃ p ∈ innermostAmong? start stop above cs,
      p ∈ preorder q.above q.node ∧ q.label.Contains p.label.start p.label.stop := by
  obtain ⟨c, hc, hq⟩ := mem_preorderAll_iff.mp hq
  have hdown := (hnests c hc).contains_of_mem_preorder hrange hq hcontains
  have hfound : innermostAmong? start stop above cs =
      some ((c.innermost? start stop above).getD ⟨c, above⟩) :=
    innermostAmong?_of_contains hrange hapart hc hdown
  have hmem := (hnests c hc).innermost?_mem_preorder hrange hq hcontains
  have hwidth := (innermostAmong?_eq_some hfound).2.1.width hrange
  refine ⟨_, hfound, hmem, ?_⟩
  exact ((hnests c hc).of_mem_preorder hq).within_of_mem_preorder hmem hwidth

end Node

namespace Tree
open Node ParseNode Place

/-- What is found for a range: nothing if all nodes below the root leave the range out, and else a
node around the range, none of whose children is around it. If the range is not empty, then every
other node around it is above the one that is found. -/
structure IsInnermost (tree : Tree) (start stop : Nat) (found : Option Place) : Prop where
  none_iff : found = none ↔ ∀ c ∈ tree.root.children, ¬ c.label.Contains start stop
  around : ∀ p ∈ found, p ∈ tree.places ∧ p.above ≠ [] ∧ p.label.Contains start stop ∧
    ∀ c ∈ p.node.children, ¬ c.label.Contains start stop
  smallest : start < stop → ∀ q ∈ tree.places, q.above ≠ [] → q.label.Contains start stop →
    ∃ p ∈ found, p ∈ preorder q.above q.node ∧ q.label.Contains p.label.start p.label.stop

/-- The places below the root. -/
theorem mem_preorderAll_root_iff {tree : Tree} {p : Place} :
    p ∈ preorderAll [tree.root] tree.root.children ↔ p ∈ tree.places ∧ p.above ≠ [] := by
  constructor
  · intro hp
    have habove : [tree.root] <:+ p.above := suffix_of_mem_preorderAll hp
    refine ⟨preorderAll_subset_preorder hp, ?_⟩
    intro hroot
    simp [hroot] at habove
  · rintro ⟨hp, hbelow⟩
    cases hroot : tree.root with
    | node l cs =>
      rw [places, hroot, preorder, List.mem_cons] at hp
      refine hp.resolve_left ?_
      rintro rfl
      exact hbelow rfl

/-- In a tree of nodes that nest, the search finds the innermost node around a range. -/
theorem locate_isInnermost {source : Text} {parse : Parse} (h : parse.root.spansNest = true)
    (start stop : Nat) :
    (ofParse source parse).IsInnermost start stop
      ((ofParse source parse).locate? start stop) where
  none_iff := innermost?_eq_none_iff
  around p hp := by
    obtain ⟨hmem, hcontains, hchildren⟩ := innermost?_eq_some hp
    obtain ⟨hp, hbelow⟩ := mem_preorderAll_root_iff.mp hmem
    exact ⟨hp, hbelow, hcontains, hchildren⟩
  smallest hrange q hq hbelow hcontains := by
    obtain ⟨⟨t, cs⟩, hasErrors⟩ := parse
    have hcs := (spansNest_node h).2
    have hmem := mem_preorderAll_root_iff.mpr ⟨hq, hbelow⟩
    exact innermostAmong?_below hrange (nests_of_mem_ofChildren hcs) (ordered_ofChildren hcs)
      hmem hcontains

/-- Around the name on the left of the assignment stand a statement, the assignment and the name;
the cursor at the end of the text is in the empty value, which the search does not reach. -/
theorem missingValue_locate :
    ∃ parse, missingValue.parse? = some parse ∧ parse.root.spansNest = true ∧
      (ofParse missingValue.text parse).IsInnermost 0 1
        ((ofParse missingValue.text parse).locate? 0 1) ∧
      ((ofParse missingValue.text parse).locate? 0 1).map (·.label.index) = some 3 ∧
      (ofParse missingValue.text parse).IsInnermost 8 8 none := by
  refine ⟨_, rfl, rfl, locate_isInnermost rfl 0 1, rfl, ?_⟩
  exact locate_isInnermost rfl 8 8

end Tree
end LogProbe
