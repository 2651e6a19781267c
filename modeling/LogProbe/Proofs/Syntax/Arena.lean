import LogProbe.Proofs.Syntax.Order
import LogProbe.Proofs.Syntax.Table
import Mathlib.Data.List.Nodup

/-! Trees as numbered nodes. The nodes of a tree, in preorder, are those of the rows that it keeps
of a table; each stands once, in the ascending list of its parent's children, and its span lies
within that of its parent. -/
namespace LogProbe
namespace ParseNode

theorem isBoundary_replicate {limit n : Nat} :
    Text.isBoundary (List.replicate limit 'a') n = true ↔ n ≤ limit := by
  constructor
  · intro h
    have hle := Text.le_size_of_isBoundary h
    rwa [Text.size_replicate (by decide)] at hle
  · intro h
    rw [Text.isBoundary, Text.cut?_replicate (by decide) h]
    rfl

mutual

/-- Where spans nest, they do so in a text of narrow characters, all of whose offsets are
boundaries. -/
theorem nested_of_spansNest {limit : Nat} : ∀ {n : ParseNode}, n.spansNest = true →
    n.plainSiblings = true → n.token.stop ≤ limit → n.nested (List.replicate limit 'a') = true
  | .node t cs, h, hplain, hstop => by
    obtain ⟨hprevious, hsiblings⟩ := plainSiblings_node hplain
    obtain ⟨hforward, hcs⟩ := spansNest_node h
    change t.stop ≤ limit at hstop
    have hstart : t.start ≤ limit := Nat.le_trans hforward hstop
    rw [nested, nestedAll_of_spansNestAll hcs hsiblings hstop, Token.wellPlaced, hprevious,
      isBoundary_replicate.mpr hstart, isBoundary_replicate.mpr hstop]
    simp [hforward]

theorem nestedAll_of_spansNestAll {limit : Nat} : ∀ {floor ceiling : Nat} {cs : List ParseNode},
    spansNestAll floor ceiling cs = true → plainSiblingsAll cs = true → ceiling ≤ limit →
      nestedAll (List.replicate limit 'a') floor ceiling cs = true
  | _, _, [], _, _, _ => rfl
  | _, _, c :: cs, h, hplain, hstop => by
    obtain ⟨hfloor, hceiling, hc, hcs⟩ := spansNestAll_cons h
    rw [plainSiblingsAll, Bool.and_eq_true] at hplain
    rw [nestedAll, nested_of_spansNest hc hplain.1 (by omega),
      nestedAll_of_spansNestAll hcs hplain.2 hstop]
    simp [hfloor, hceiling]

end

mutual

theorem plainSiblings_of_rows {parent : Option Nat} {i : Nat} : ∀ {n : ParseNode},
    (∀ row ∈ n.rows parent i, row.token.previous = none) → n.plainSiblings = true
  | .node t cs, h => by
    rw [rows, List.forall_mem_cons] at h
    rw [plainSiblings, h.1, plainSiblingsAll_of_rows h.2]
    rfl

theorem plainSiblingsAll_of_rows {parent : Option Nat} {i : Nat} : ∀ {cs : List ParseNode},
    (∀ row ∈ rowsAll parent i cs, row.token.previous = none) → plainSiblingsAll cs = true
  | [], _ => rfl
  | c :: cs, h => by
    rw [rowsAll, List.forall_mem_append] at h
    rw [plainSiblingsAll, plainSiblings_of_rows h.1, plainSiblingsAll_of_rows h.2]
    rfl

end

variable {source : Text}

mutual

/-- Spans that nest do so in a text in which the rows stand well. -/
theorem nested_of_rows {parent : Option Nat} {i : Nat} : ∀ {n : ParseNode},
    (∀ row ∈ n.rows parent i, row.token.wellPlaced source = true) → n.spansNest = true →
      n.nested source = true
  | .node t cs, h, hspans => by
    rw [rows, List.forall_mem_cons] at h
    rw [nested, h.1, nestedAll_of_rows h.2 (spansNest_node hspans).2]
    rfl

theorem nestedAll_of_rows {parent : Option Nat} {i floor ceiling : Nat} : ∀ {cs : List ParseNode},
    (∀ row ∈ rowsAll parent i cs, row.token.wellPlaced source = true) →
      spansNestAll floor ceiling cs = true → nestedAll source floor ceiling cs = true
  | [], _, _ => rfl
  | c :: cs, h, hspans => by
    obtain ⟨hfloor, hceiling, hc, hcs⟩ := spansNestAll_cons hspans
    rw [rowsAll, List.forall_mem_append] at h
    rw [nestedAll, nested_of_rows h.1 hc, nestedAll_of_rows h.2 hcs]
    simp [hfloor, hceiling]

end

end ParseNode

namespace Node
open ParseNode

theorem size_eq (n : Node) : n.size = 1 + sizeAll n.children := by
  obtain ⟨l, cs⟩ := n
  rw [size, children]

theorem sizeAll_append (cs ds : List Node) : sizeAll (cs ++ ds) = sizeAll cs + sizeAll ds := by
  induction cs with
  | nil => rw [List.nil_append, sizeAll, Nat.zero_add]
  | cons c cs ih => rw [List.cons_append, sizeAll, sizeAll, ih, Nat.add_assoc]

theorem sizeAll_reverse (cs : List Node) : sizeAll cs.reverse = sizeAll cs := by
  induction cs with
  | nil => rfl
  | cons c cs ih =>
    rw [List.reverse_cons, sizeAll_append, ih]
    simp only [sizeAll]
    omega

theorem size_lt_of_mem {n c : Node} (h : c ∈ n.children) : c.size < n.size := by
  obtain ⟨front, back, hsplit⟩ := List.append_of_mem h
  rw [n.size_eq, hsplit, sizeAll_append, sizeAll]
  omega

mutual

theorem size_ofParse {index outer i : Nat} {before : Option Nat} :
    ∀ n : ParseNode, (ofParse index outer before n).size = (n.keptRows i).length
  | .node t cs => by
    rw [ofParse, size, keptRows, List.length_cons, sizeAll_ofChildren cs, Nat.add_comm]

theorem sizeAll_ofChildren {next outer i : Nat} {before : Option Nat} :
    ∀ cs : List ParseNode, sizeAll (ofChildren next outer before cs) = (keptRowsAll i cs).length
  | [] => rfl
  | c :: cs => by
    rw [ofChildren, keptRowsAll, List.length_append]
    split
    · rw [sizeAll, size_ofParse c, sizeAll_ofChildren cs]
    · rw [List.length_nil, Nat.zero_add, sizeAll_ofChildren cs]

end

mutual

/-- Nodes are numbered in preorder. -/
theorem index_preorder {index outer : Nat} {before : Option Nat} {above : List Node} :
    ∀ n : ParseNode, (Place.preorder above (ofParse index outer before n)).map (·.label.index) =
      List.range' index (ofParse index outer before n).size
  | .node t cs => by
    rw [ofParse, Place.preorder, size, List.map_cons, index_preorderAll cs, Nat.add_comm 1,
      List.range'_succ]
    rfl

theorem index_preorderAll {next outer : Nat} {before : Option Nat} {above : List Node} :
    ∀ cs : List ParseNode,
      (Place.preorderAll above (ofChildren next outer before cs)).map (·.label.index) =
        List.range' next (sizeAll (ofChildren next outer before cs))
  | [] => rfl
  | c :: cs => by
    rw [ofChildren]
    split
    · rw [Place.preorderAll, List.map_append, index_preorder c, index_preorderAll cs, sizeAll,
        List.range'_append_1]
    · exact index_preorderAll cs

end

end Node

namespace Place

/-- What a place of a tree keeps of a row of the table: the row of its parent, the kind, and below
the root the field and the start; the end may be cut back, but not to the start. -/
structure IsOfRow (origins : List Nat) (p : Place) (row : Row) : Prop where
  parent : row.parent = p.parent?.bind fun q => origins[q.label.index]?
  kind : p.kind = Kind.ofGrammar row.token.kind
  field : p.above ≠ [] → p.field = row.token.field.bind Field.ofGrammar?
  start : p.above ≠ [] → p.label.start = row.token.start
  stop : p.above ≠ [] → p.label.stop ≤ row.token.stop
  content : row.token.start < row.token.stop → p.label.start < p.label.stop

/-- A place of a tree is made of the row that its number leads to. -/
def MadeOf (table : List Row) (origins : List Nat) (p : Place) : Prop :=
  ∃ i row, origins[p.label.index]? = some i ∧ table[i]? = some row ∧ p.IsOfRow origins row

end Place

namespace Node
open ParseNode Row
variable {source : Text} {table : List Row} {origins : List Nat}

mutual

theorem madeOf_preorder {parent : Node} {above : List Node} {i index outer : Nat}
    {before : Option Nat} {p : Place} : ∀ {n : ParseNode}, n.nested source = true →
    n.rows origins[parent.label.index]? i <+: table.drop i →
    n.keptRows i <+: origins.drop index →
    p ∈ Place.preorder (parent :: above) (ofParse index outer before n) → p.MadeOf table origins
  | .node t cs, h, hrows, hkept, hp => by
    rw [rows] at hrows
    rw [keptRows] at hkept
    obtain ⟨hrow, hrows⟩ := cons_isPrefix_drop hrows
    obtain ⟨horigin, hkept⟩ := cons_isPrefix_drop hkept
    have hends := endsWithin_contentEnd h
    rw [ofParse, Place.preorder, List.mem_cons] at hp
    rcases hp with rfl | hp
    · refine ⟨i, _, horigin, hrow, rfl, rfl, fun _ => rfl, fun _ => rfl, fun _ => hends.le_stop,
        hends.start_lt⟩
    · refine madeOf_preorderAll (nested_node h).2 ?_ hkept hp
      rw [label, horigin]
      exact hrows

theorem madeOf_preorderAll {parent : Node} {above : List Node} {i next outer : Nat}
    {before : Option Nat} {p : Place} : ∀ {cs : List ParseNode} {floor ceiling : Nat},
    nestedAll source floor ceiling cs = true →
    rowsAll origins[parent.label.index]? i cs <+: table.drop i →
    keptRowsAll i cs <+: origins.drop next →
    p ∈ Place.preorderAll (parent :: above) (ofChildren next outer before cs) →
      p.MadeOf table origins
  | [], _, _, _, _, _, hp => by simp [ofChildren, Place.preorderAll] at hp
  | c :: cs, _, _, h, hrows, hkept, hp => by
    obtain ⟨-, -, hc, hcs⟩ := nestedAll_cons h
    rw [rowsAll] at hrows
    rw [keptRowsAll] at hkept
    obtain ⟨hrow, hrows⟩ := append_isPrefix_drop hrows
    obtain ⟨horigin, hkept⟩ := append_isPrefix_drop hkept
    rw [length_rows] at hrows
    rw [ofChildren] at hp
    split at hp
    · rename_i hstructural
      rw [if_pos hstructural] at horigin hkept
      have hsize : (ofParse next outer before c).size = (c.keptRows i).length := size_ofParse c
      rw [← hsize] at hkept
      rw [Place.preorderAll, List.mem_append] at hp
      rcases hp with hp | hp
      · exact madeOf_preorder hc hrow horigin hp
      · exact madeOf_preorderAll hcs hrows hkept hp
    · rename_i hstructural
      rw [if_neg hstructural] at hkept
      exact madeOf_preorderAll hcs hrows hkept hp

end

theorem Ordered.siblingsApart {n : Node} (h : n.Ordered) :
    n.children.Pairwise fun a b => a.label.stop ≤ b.label.start := by
  cases h with
  | node _ below siblings =>
    exact siblings.imp_of_mem fun _ hb hle => Nat.le_trans hle (below _ hb).fullStart_le

end Node

/-- What a table of a text states of its rows: they are in preorder, they run forward and stay within
the text, those of children lie within that of their parent and after those of the siblings before
them, and no row names another preceding sibling. -/
structure ParseTable.WellFormed (t : ParseTable) : Prop where
  preorder : Row.isPreorder t.rows = true
  forward : ∀ row ∈ t.rows, row.token.start ≤ row.token.stop ∧ row.token.stop ≤ t.text.size
  inside : ∀ row ∈ t.rows, ∀ parent ∈ row.parent.bind (t.rows[·]?),
    parent.token.start ≤ row.token.start ∧ row.token.stop ≤ parent.token.stop
  apart : t.rows.Pairwise fun a b => a.parent = b.parent → a.token.stop ≤ b.token.start
  plain : ∀ row ∈ t.rows, row.token.previous = none

namespace ParseTable.WellFormed
open ParseNode Row
variable {table : ParseTable} (h : table.WellFormed)
include h

mutual

theorem spansNest {parent : Option Nat} {i : Nat} : ∀ {n : ParseNode},
    n.rows parent i <+: table.rows.drop i → n.spansNest = true
  | .node t cs, hrows => by
    rw [ParseNode.rows] at hrows
    obtain ⟨hrow, hrows⟩ := cons_isPrefix_drop hrows
    have hforward := (h.forward _ (List.mem_of_getElem? hrow)).1
    rw [ParseNode.spansNest, spansNestAll hrow (fun row hmem hparent => ?_) hrows]
    · simpa using hforward
    · have hrow' : row.parent.bind (table.rows[·]?) = some ⟨parent, t⟩ := by
        rw [hparent]
        exact hrow
      exact (h.inside row (List.mem_of_mem_drop hmem) _ hrow').1

theorem spansNestAll {p i floor : Nat} {above : Row} (habove : table.rows[p]? = some above)
    (hfloor : ∀ row ∈ table.rows.drop i, row.parent = some p → floor ≤ row.token.start) :
    ∀ {cs : List ParseNode}, rowsAll (some p) i cs <+: table.rows.drop i →
      ParseNode.spansNestAll floor above.token.stop cs = true
  | [], _ => rfl
  | c :: cs, hrows => by
    rw [rowsAll] at hrows
    obtain ⟨hc, hcs⟩ := append_isPrefix_drop hrows
    rw [length_rows] at hcs
    have hrow := rows_isPrefix_drop hc
    have hinside := (h.inside _ (List.mem_of_getElem? hrow) above habove).2
    obtain ⟨hlt, hget⟩ := List.getElem?_eq_some_iff.mp hrow
    have hdrop := List.drop_eq_getElem_cons hlt
    rw [hget] at hdrop
    have hlow := hfloor ⟨some p, c.token⟩ (by rw [hdrop]; exact List.mem_cons_self) rfl
    have hbehind : ∀ row ∈ table.rows.drop (i + c.size), row.parent = some p →
        c.token.stop ≤ row.token.start := by
      intro row hmem hparent
      have hapart := h.apart.drop (i := i)
      rw [hdrop, List.pairwise_cons] at hapart
      have hafter : i + c.size = i + 1 + (c.size - 1) := by
        have hsize := c.size_pos
        omega
      rw [hafter, ← List.drop_drop] at hmem
      exact hapart.1 row (List.mem_of_mem_drop hmem) hparent.symm
    rw [ParseNode.spansNestAll, spansNest hc, spansNestAll habove hbehind hcs]
    simp only [hlow, hinside, decide_true, Bool.and_self]

end

/-- The tree of a table whose offsets are boundaries of its text. -/
theorem exists_nested (hboundaries : ∀ row ∈ table.rows,
    table.text.isBoundary row.token.start = true ∧ table.text.isBoundary row.token.stop = true) :
    ∃ parse, table.parse? = some parse ∧ table.rows = parse.root.rows none 0 ∧
      parse.root.nested table.text = true ∧ parse.root.plainSiblings = true := by
  obtain ⟨root, hroot⟩ := Row.exists_tree? h.preorder
  have hrows := Row.rows_of_tree? hroot
  have hplaced : ∀ row ∈ table.rows, row.token.wellPlaced table.text = true := fun row hrow => by
    obtain ⟨hstart, hstop⟩ := hboundaries row hrow
    simp [Token.wellPlaced, hstart, hstop, (h.forward row hrow).1, h.plain row hrow]
  have hall : root.rows none 0 <+: table.rows.drop 0 := hrows ▸ List.prefix_rfl
  refine ⟨⟨root, table.hasErrors⟩, by rw [ParseTable.parse?, hroot]; rfl, hrows, ?_, ?_⟩
  · exact ParseNode.nested_of_rows (hrows ▸ hplaced) (h.spansNest hall)
  · exact ParseNode.plainSiblings_of_rows (hrows ▸ h.plain)

end ParseTable.WellFormed

namespace Place
variable {p q : Place}

theorem exists_parent? (h : p.above ≠ []) : ∃ q, p.parent? = some q := by
  obtain ⟨n, above⟩ := p
  cases above with
  | nil => exact absurd rfl h
  | cons parent above => exact ⟨_, rfl⟩

theorem children_sublist {above : List Node} (cs : List Node) :
    (cs.map (⟨·, above⟩)).Sublist (preorderAll above cs) := by
  induction cs with
  | nil => exact .slnil
  | cons c cs ih =>
    cases c
    rw [preorderAll, preorder, List.map_cons, List.cons_append]
    exact (ih.trans (List.sublist_append_right _ _)).cons_cons _

mutual

/-- The children of a place stand behind it, in order. -/
theorem children_sublist_preorder {above : List Node} : ∀ {n : Node}, p ∈ preorder above n →
    p.children.Sublist (preorder above n)
  | .node l cs, hp => by
    rw [preorder, List.mem_cons] at hp
    rw [preorder]
    rcases hp with rfl | hp
    · exact (children_sublist cs).cons _
    · exact (children_sublist_preorderAll hp).cons _

theorem children_sublist_preorderAll {above : List Node} : ∀ {cs : List Node},
    p ∈ preorderAll above cs → p.children.Sublist (preorderAll above cs)
  | [], hp => by simp [preorderAll] at hp
  | c :: cs, hp => by
    rw [preorderAll, List.mem_append] at hp
    rw [preorderAll]
    rcases hp with hp | hp
    · exact (children_sublist_preorder hp).trans (List.sublist_append_left _ _)
    · exact (children_sublist_preorderAll hp).trans (List.sublist_append_right _ _)

end

end Place

namespace Tree

/-- The tree is that of the rows that a table keeps: these are the `origins` of its nodes, in the
order of the table. -/
structure IsArena (table : ParseTable) (origins : List Nat) (tree : Tree) : Prop where
  ascending : origins.Pairwise (· < ·)
  kept : ∀ i, i ∈ origins ↔ Row.Kept table.rows i
  numbered : tree.places.map (·.label.index) = List.range origins.length
  made : ∀ p ∈ tree.places, p.MadeOf table.rows origins
  /-- A node stands once, in the ascending list of the children of its parent. -/
  childrenAscend : ∀ p ∈ tree.places, (p.node.children.map (·.label.index)).Pairwise (· < ·)
  childOfParent : ∀ p ∈ tree.places, p.above ≠ [] → ∃ q ∈ tree.places, p.parent? = some q ∧
    ∀ r ∈ tree.places, p.label.index ∈ r.node.children.map (·.label.index) ↔ r = q
  spans : ∀ p ∈ tree.places, p.label.fullStart ≤ p.label.start ∧ p.label.start ≤ p.label.stop ∧
    p.label.stop ≤ table.text.size
  /-- Spans nest although the end of a node is cut back to its last token that is no comment. -/
  within : ∀ p ∈ tree.places, ∀ q, p.parent? = some q →
    ∀ row ∈ origins[p.label.index]?.bind (table.rows[·]?), row.token.start < row.token.stop →
      q.label.start ≤ p.label.start ∧ p.label.stop ≤ q.label.stop
  siblingsApart : ∀ p ∈ tree.places,
    p.node.children.Pairwise fun a b => a.label.stop ≤ b.label.start


theorem numbered_ofParse (source : Text) (parse : Parse) :
    (ofParse source parse).places.map (·.label.index) =
      List.range (parse.root.keptRows 0).length := by
  obtain ⟨⟨t, cs⟩, hasErrors⟩ := parse
  have hsize : Node.sizeAll (Node.ofChildren 1 0 none cs) = (ParseNode.keptRowsAll 1 cs).length :=
    Node.sizeAll_ofChildren cs
  rw [places, ofParse, Place.preorder, List.map_cons, Node.index_preorderAll, ParseNode.children,
    hsize, ParseNode.keptRows, List.length_cons, List.range_eq_range', List.range'_succ]
  rfl

theorem madeOf_ofParse {source : Text} {parse : Parse} (h : parse.root.nested source = true)
    {p : Place} (hp : p ∈ (ofParse source parse).places) :
    p.MadeOf (parse.root.rows none 0) (parse.root.keptRows 0) := by
  obtain ⟨⟨t, cs⟩, hasErrors⟩ := parse
  rw [places, ofParse, Place.preorder, List.mem_cons] at hp
  rcases hp with rfl | hp
  · refine ⟨0, ⟨none, t⟩, by rw [ParseNode.keptRows]; rfl, by rw [ParseNode.rows]; rfl, rfl, rfl,
      by simp, by simp, by simp, fun hcontent => ?_⟩
    have hstop := Text.le_size_of_isBoundary (ParseNode.token_span h).2.2
    exact Nat.lt_of_lt_of_le (Nat.zero_lt_of_lt hcontent) hstop
  · refine Node.madeOf_preorderAll (i := 1) (ParseNode.nested_node h).2 ?_ ?_ hp
    · rw [ParseNode.keptRows, ParseNode.rows]
      exact List.prefix_rfl
    · rw [ParseNode.keptRows]
      exact List.prefix_rfl

section Numbered
variable {tree : Tree} {count : Nat}
  (hnumbered : tree.places.map (·.label.index) = List.range count)
include hnumbered

theorem eq_of_index {p q : Place} (hp : p ∈ tree.places) (hq : q ∈ tree.places)
    (h : p.label.index = q.label.index) : p = q :=
  List.inj_on_of_nodup_map (hnumbered ▸ List.nodup_range) hp hq h

/-- In a numbered tree, children have ascending numbers. -/
theorem childrenAscend_of_numbered {p : Place} (hp : p ∈ tree.places) :
    (p.node.children.map (·.label.index)).Pairwise (· < ·) := by
  have hsub := (Place.children_sublist_preorder hp).map (·.label.index)
  rw [Place.children, List.map_map] at hsub
  have hall : (tree.places.map (·.label.index)).Pairwise (· < ·) :=
    hnumbered ▸ List.pairwise_lt_range
  exact hall.sublist hsub

/-- In a numbered tree, the number of a node stands among the children of its parent alone. -/
theorem mem_children_iff_of_numbered {p q r : Place} (hp : p ∈ tree.places)
    (hq : p.parent? = some q) (hr : r ∈ tree.places) :
    p.label.index ∈ r.node.children.map (·.label.index) ↔ r = q := by
  constructor
  · intro hmem
    obtain ⟨c, hc, hindex⟩ := List.mem_map.mp hmem
    have hbelow := tree.closed_places.below hr hc
    obtain rfl : r.below c = p := eq_of_index hnumbered hbelow hp hindex
    exact Option.some.inj hq
  · rintro rfl
    exact List.mem_map.mpr ⟨p.node, mem_children_of_parent? hp hq, rfl⟩

end Numbered

end Tree

/-- A table that is well-formed has a tree, and that is the arena of the rows that it keeps. -/
theorem ParseTable.WellFormed.tree_isArena {table : ParseTable} (h : table.WellFormed) :
    ∃ parse, table.parse? = some parse ∧
      (Tree.ofParse table.text parse).IsArena table (parse.root.keptRows 0) := by
  obtain ⟨root, hroot⟩ := Row.exists_tree? h.preorder
  have hrows := Row.rows_of_tree? hroot
  have hall : root.rows none 0 <+: table.rows.drop 0 := hrows ▸ List.prefix_rfl
  have hstop := (h.forward _ (List.mem_of_getElem? (Row.rows_isPrefix_drop hall))).2
  have hplain := ParseNode.plainSiblings_of_rows (hrows ▸ h.plain)
  let parse : Parse := { root, hasErrors := table.hasErrors }
  have hnested : parse.root.nested (List.replicate table.text.size 'a') = true :=
    ParseNode.nested_of_spansNest (h.spansNest hall) hplain hstop
  let tree := Tree.ofParse table.text parse
  -- only the size of the text counts: one of narrow characters has the same tree
  have hsize : Text.size (List.replicate table.text.size 'a') = table.text.size :=
    Text.size_replicate (by decide) _
  have hplaces : tree.places =
      (Tree.ofParse (List.replicate table.text.size 'a') parse).places := by
    simp only [tree, Tree.places, Tree.ofParse, hsize]
  have hsound : ∀ p ∈ tree.places, p.label.Sound (List.replicate table.text.size 'a') :=
    hplaces ▸ Tree.labelsSound_ofParse hnested
  have hordered : ∀ p ∈ tree.places, p.node.Ordered := fun p hp =>
    Tree.ordered_of_mem_places (Tree.ordered_ofParse hnested hplain) (hplaces ▸ hp)
  have hmade : ∀ p ∈ tree.places, p.MadeOf table.rows (root.keptRows 0) := fun p hp => by
    rw [hrows]
    exact Tree.madeOf_ofParse hnested (hplaces ▸ hp)
  have hnumbered := Tree.numbered_ofParse table.text parse
  refine ⟨parse, by rw [ParseTable.parse?, hroot]; rfl, ?_⟩
  exact {
    ascending := ParseNode.pairwise_keptRows root
    kept := fun i => by
      rw [hrows]
      exact Row.mem_keptRows_iff
    numbered := hnumbered
    made := hmade
    childrenAscend := fun p hp => Tree.childrenAscend_of_numbered hnumbered hp
    childOfParent := fun p hp htop => by
      obtain ⟨q, hq⟩ := Place.exists_parent? htop
      exact ⟨q, tree.closed_places.parent hp hq, hq,
        fun r hr => Tree.mem_children_iff_of_numbered hnumbered hp hq hr⟩
    spans := fun p hp => by
      obtain ⟨hfull, hforward, -, -, hstop, -⟩ := hsound p hp
      exact ⟨hfull, hforward, hsize ▸ Text.le_size_of_isBoundary hstop⟩
    within := fun p hp q hq row hrow hwidth => by
      obtain ⟨i, made, horigin, hget, hmadeOf⟩ := hmade p hp
      rw [horigin, Option.bind_some, hget] at hrow
      cases hrow
      exact (hordered q (tree.closed_places.parent hp hq)).within
        (Tree.mem_children_of_parent? hp hq) (hmadeOf.content hwidth)
    siblingsApart := fun p hp => (hordered p hp).siblingsApart }

/-- An assignment with a comment in place of its value, which the parser makes up behind it. -/
def missingValue : ParseTable where
  grammar := .javascript
  text := "x = // n\n".toList
  hasErrors := true
  rows := [
    ⟨none, "program", true, none, 0, 9, none⟩,
    ⟨some 0, "expression_statement", true, none, 0, 8, none⟩,
    ⟨some 1, "assignment_expression", true, none, 0, 8, none⟩,
    ⟨some 2, "identifier", true, some "left", 0, 1, none⟩,
    ⟨some 2, "=", false, none, 2, 3, none⟩,
    ⟨some 2, "comment", true, none, 4, 8, none⟩,
    ⟨some 2, "identifier", true, some "right", 8, 8, none⟩]

/-- The assignment ends with its sign, in front of the comment and of the empty value. -/
theorem missingValue_isArena :
    ∃ parse, missingValue.parse? = some parse ∧
      (Tree.ofParse missingValue.text parse).IsArena missingValue [0, 1, 2, 3, 6] ∧
      (Tree.ofParse missingValue.text parse).places.map (fun p => (p.label.start, p.label.stop)) =
        [(0, 9), (0, 3), (0, 3), (0, 1), (8, 8)] := by
  have hformed : missingValue.WellFormed := by
    constructor <;> decide
  obtain ⟨parse, hparse, harena⟩ := hformed.tree_isArena
  refine ⟨parse, hparse, ?_, ?_⟩ <;> cases hparse
  · exact harena
  · rfl

end LogProbe
