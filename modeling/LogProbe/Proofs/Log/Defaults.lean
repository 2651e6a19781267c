import LogProbe.Proofs.Log.Echo
import LogProbe.Proofs.Syntax.Arena
import LogProbe.Proofs.Text.Layout

/-! A binding read back without its default values. The stretches to leave out are collected with a
stack of nodes, sorted and copied around. What comes of it follows the structure of the binding: of
a pattern with a default value only that is kept which stands up to the end of what it binds. -/
namespace LogProbe
namespace Node
variable {source : Text}

/-- What a pattern gives a default value to. -/
def bound? (n : Node) : Option Node := if n.kind.hasDefault then n.child? .left else none

theorem mem_of_bound? {n c : Node} (h : n.bound? = some c) : c ∈ n.children := by
  rw [bound?] at h
  split at h
  · exact List.mem_of_find?_eq_some h
  · cases h

section Spans

theorem spansOfBound?_eq (stop : Nat) (cs : List Node) : spansOfBound? stop cs =
    (cs.find? (·.field == some .left)).map fun c => (c.label.stop, stop) :: defaultSpans c := by
  induction cs with
  | nil => rw [spansOfBound?, List.find?_nil, Option.map_none]
  | cons c cs ih =>
    rw [spansOfBound?, List.find?_cons]
    cases c.field == some .left with
    | true => rfl
    | false => exact ih

theorem defaultSpansAll_eq_flatMap (cs : List Node) :
    defaultSpansAll cs = cs.flatMap defaultSpans := by
  induction cs with
  | nil => rw [defaultSpansAll, List.flatMap_nil]
  | cons c cs ih => rw [defaultSpansAll, ih, List.flatMap_cons]

theorem defaultSpans_eq (n : Node) : n.defaultSpans =
    (n.bound?.map fun c => (c.label.stop, n.label.stop) :: defaultSpans c).getD
      (n.children.flatMap defaultSpans) := by
  obtain ⟨l, cs⟩ := n
  rw [defaultSpans, defaultSpansAll_eq_flatMap, bound?, child?, kind, label, children]
  cases hkind : l.kind
  case assignmentPattern | objectAssignmentPattern => rw [spansOfBound?_eq]; rfl
  all_goals rfl

theorem defaultSpans_of_bound {n c : Node} (h : n.bound? = some c) :
    n.defaultSpans = (c.label.stop, n.label.stop) :: c.defaultSpans := by
  rw [defaultSpans_eq, h]
  rfl

theorem defaultSpans_of_unbound {n : Node} (h : n.bound? = none) :
    n.defaultSpans = n.children.flatMap defaultSpans := by
  rw [defaultSpans_eq, h]
  rfl

/-- The search for default values with a stack of nodes still to visit: a pattern with a default
value gives way to what it binds, and any other node to its children, the last of them on top. -/
def searchDefaults : List Node → List (Nat × Nat)
  | [] => []
  | n :: stack =>
    match _hbound : n.bound? with
    | some c => (c.label.stop, n.label.stop) :: searchDefaults (c :: stack)
    | none => searchDefaults (n.children.reverse ++ stack)
termination_by stack => sizeAll stack
decreasing_by
  · have hsize := size_lt_of_mem (mem_of_bound? _hbound)
    rw [sizeAll, sizeAll]
    omega
  · have hsize := n.size_eq
    rw [sizeAll_append, sizeAll_reverse, sizeAll]
    omega

theorem searchDefaults_of_bound {n c : Node} {stack : List Node} (h : n.bound? = some c) :
    searchDefaults (n :: stack) =
      (c.label.stop, n.label.stop) :: searchDefaults (c :: stack) := by
  rw [searchDefaults]
  split
  · rename_i d hd
    cases h.symm.trans hd
    rfl
  · rename_i hnone
    cases h.symm.trans hnone

theorem searchDefaults_of_unbound {n : Node} {stack : List Node} (h : n.bound? = none) :
    searchDefaults (n :: stack) = searchDefaults (n.children.reverse ++ stack) := by
  rw [searchDefaults]
  split
  · rename_i hd
    cases h.symm.trans hd
  · rfl

/-- The search collects the stretches of all nodes on the stack, in whatever order. -/
theorem searchDefaults_perm (stack : List Node) :
    (searchDefaults stack).Perm (stack.flatMap defaultSpans) := by
  induction stack using searchDefaults.induct with
  | case1 => rw [searchDefaults, List.flatMap_nil]
  | case2 n stack c hbound ih =>
    rw [searchDefaults_of_bound hbound, List.flatMap_cons, defaultSpans_of_bound hbound]
    rw [List.flatMap_cons] at ih
    exact ih.cons _
  | case3 n stack hbound ih =>
    rw [searchDefaults_of_unbound hbound, List.flatMap_cons, defaultSpans_of_unbound hbound]
    rw [List.flatMap_append] at ih
    exact ih.trans (((List.reverse_perm _).flatMap_right _).append_right _)

end Spans

mutual
/-- A binding read back by its structure. A pattern with a default value comes to its text up to what
it binds and that read back; any other node comes to its text with its children read back. -/
def bare? (source : Text) : Node → Option Text
  | .node l cs =>
    let inside? := if l.kind.hasDefault then bareBound? source l.start cs else none
    inside?.getD (bareAmong? source l.start l.stop cs)

def bareBound? (source : Text) (start : Nat) : List Node → Option (Option Text)
  | [] => none
  | c :: cs =>
    if c.field == some .left then
      some do
        let before ← source.slice? start c.label.start
        let bound ← bare? source c
        return before ++ bound
    else bareBound? source start cs

def bareAmong? (source : Text) (start stop : Nat) : List Node → Option Text
  | [] => source.slice? start stop
  | c :: cs => do
    let before ← source.slice? start c.label.start
    let inner ← bare? source c
    let rest ← bareAmong? source c.label.stop stop cs
    return before ++ inner ++ rest
end

theorem bareBound?_eq (start : Nat) (cs : List Node) : bareBound? source start cs =
    (cs.find? (·.field == some .left)).map fun c => do
      let before ← source.slice? start c.label.start
      let bound ← bare? source c
      return before ++ bound := by
  induction cs with
  | nil => rw [bareBound?, List.find?_nil, Option.map_none]
  | cons c cs ih =>
    rw [bareBound?, List.find?_cons]
    cases c.field == some .left with
    | true => rfl
    | false => exact ih

theorem bare?_eq (n : Node) : n.bare? source =
    (n.bound?.map fun c => do
      let before ← source.slice? n.label.start c.label.start
      let bound ← bare? source c
      return before ++ bound).getD
        (bareAmong? source n.label.start n.label.stop n.children) := by
  obtain ⟨l, cs⟩ := n
  rw [bare?, bareBound?_eq, bound?, child?, kind, label, children]
  cases l.kind.hasDefault with
  | true => rfl
  | false => rfl

theorem bare?_of_bound {n c : Node} {before t : Text} (h : n.bound? = some c)
    (hbefore : source.slice? n.label.start c.label.start = some before)
    (hc : c.bare? source = some t) : n.bare? source = some (before ++ t) := by
  rw [bare?_eq, h, Option.map_some, Option.getD_some, hbefore, hc]
  rfl

theorem bare?_of_unbound {n : Node} (h : n.bound? = none) :
    n.bare? source = bareAmong? source n.label.start n.label.stop n.children := by
  rw [bare?_eq, h]
  rfl

section Copy
variable {a b c : Nat} {cuts cuts' found found' : List (Nat × Nat)} {x y : Text}

theorem copyAround?_behind (hx : source.slice? a b = some x)
    (hy : copyAround? source b c cuts = some y) : copyAround? source a c cuts = some (x ++ y) := by
  cases cuts with
  | nil => exact Text.slice?_trans hx hy
  | cons cut cuts =>
    simp only [copyAround?, Option.bind_eq_bind, Option.bind_eq_some_iff] at hy ⊢
    obtain ⟨kept, hkept, rest, hrest, hy⟩ := hy
    cases hy
    exact ⟨x ++ kept, Text.slice?_trans hx hkept, rest, hrest, by simp⟩

theorem copyAround?_append (hx : copyAround? source a b cuts = some x)
    (hy : copyAround? source b c cuts' = some y) :
    copyAround? source a c (cuts ++ cuts') = some (x ++ y) := by
  induction cuts generalizing a x with
  | nil => exact copyAround?_behind hx hy
  | cons cut cuts ih =>
    simp only [List.cons_append, copyAround?, Option.bind_eq_bind, Option.bind_eq_some_iff] at hx ⊢
    obtain ⟨kept, hkept, rest, hrest, hx⟩ := hx
    cases hx
    exact ⟨kept, hkept, rest ++ y, ih hrest, by simp⟩

/-- Stretches found between two offsets, and the text that is left without them: put in order they
follow each other, and the text can be copied around them. -/
structure CopiesAround (source : Text) (start stop : Nat) (found cuts : List (Nat × Nat))
    (t : Text) : Prop where
  perm : cuts.Perm found
  within : ∀ s ∈ cuts, start ≤ s.1 ∧ s.1 ≤ s.2 ∧ s.2 ≤ stop
  ordered : cuts.Pairwise fun a b => a.2 ≤ b.1
  copied : copyAround? source start stop cuts = some t

theorem CopiesAround.start_le (h : CopiesAround source a b found cuts x) : a ≤ b := by
  cases cuts with
  | nil => exact (Text.boundaries_of_slice? h.copied).1
  | cons cut cuts =>
    obtain ⟨hstart, hforward, hstop⟩ := h.within cut List.mem_cons_self
    omega

theorem CopiesAround.of_slice? (h : source.slice? a b = some x) :
    CopiesAround source a b [] [] x := ⟨.nil, by simp, .nil, h⟩

theorem CopiesAround.behind (hx : source.slice? a b = some x)
    (h : CopiesAround source b c found cuts y) : CopiesAround source a c found cuts (x ++ y) where
  perm := h.perm
  within s hs := by
    have hle := (Text.boundaries_of_slice? hx).1
    obtain ⟨hstart, hrest⟩ := h.within s hs
    exact ⟨by omega, hrest⟩
  ordered := h.ordered
  copied := copyAround?_behind hx h.copied

theorem CopiesAround.append (h : CopiesAround source a b found cuts x)
    (h' : CopiesAround source b c found' cuts' y) :
    CopiesAround source a c (found ++ found') (cuts ++ cuts') (x ++ y) where
  perm := h.perm.append h'.perm
  within s hs := by
    have hle := h.start_le
    have hle' := h'.start_le
    rcases List.mem_append.mp hs with hs | hs
    · obtain ⟨hstart, hforward, hstop⟩ := h.within s hs
      exact ⟨hstart, hforward, by omega⟩
    · obtain ⟨hstart, hrest⟩ := h'.within s hs
      exact ⟨by omega, hrest⟩
  ordered := by
    refine List.pairwise_append.mpr ⟨h.ordered, h'.ordered, fun s hs s' hs' => ?_⟩
    have hstop := (h.within s hs).2.2
    have hstart := (h'.within s' hs').1
    omega
  copied := copyAround?_append h.copied h'.copied

/-- A last stretch that is cut off. -/
theorem CopiesAround.cutOff (h : CopiesAround source a b found cuts x) (hbc : b ≤ c)
    (hb : source.isBoundary b = true) (hc : source.isBoundary c = true) :
    CopiesAround source a c ((b, c) :: found) (cuts ++ [(b, c)]) x := by
  have hlast : CopiesAround source b c [(b, c)] [(b, c)] [] := by
    refine ⟨.refl _, by simpa using hbc, List.pairwise_singleton _ _, ?_⟩
    simp [copyAround?, Text.slice?_self hb, Text.slice?_self hc]
  have hall := h.append hlast
  rw [List.append_nil] at hall
  exact { hall with perm := hall.perm.trans (List.perm_append_singleton _ _) }

/-- Sorting puts the stretches in order, however they were found. -/
theorem CopiesAround.mergeSort_found (h : CopiesAround source a b found cuts x) :
    found.mergeSort spanPrecedes = cuts := by
  have hsorted : cuts.Pairwise (spanPrecedes · ·) := by
    refine h.ordered.imp_of_mem fun {s s'} hs hs' hle => ?_
    have hforward := (h.within s hs).2.1
    have hforward' := (h.within s' hs').2.1
    rw [spanPrecedes_iff]
    omega
  refine List.Perm.eq_of_pairwise (fun s s' _ _ hle hle' => ?_)
    (List.pairwise_mergeSort spanPrecedes_trans spanPrecedes_total found) hsorted
    ((List.mergeSort_perm _ _).trans h.perm.symm)
  rw [spanPrecedes_iff] at hle hle'
  exact Prod.ext (by omega) (by omega)

end Copy

/-- A node can be read back by its structure, and this is its text copied around the stretches of
default values in it. -/
def CopiesBare (source : Text) (n : Node) : Prop :=
  ∃ cuts t, n.bare? source = some t ∧
    CopiesAround source n.label.start n.label.stop n.defaultSpans cuts t

theorem copiesBare_among {stop : Nat} (hstop : source.isBoundary stop = true) {cs : List Node}
    (hcs : ∀ c ∈ cs, c.label.Sound source ∧ c.label.stop ≤ stop ∧ c.CopiesBare source)
    (hapart : cs.Pairwise fun a b => a.label.stop ≤ b.label.start) {start : Nat}
    (hstart : source.isBoundary start = true) (hforward : start ≤ stop)
    (hafter : ∀ c ∈ cs, start ≤ c.label.start) :
    ∃ cuts t, bareAmong? source start stop cs = some t ∧
      CopiesAround source start stop (cs.flatMap defaultSpans) cuts t := by
  induction cs generalizing start with
  | nil =>
    obtain ⟨t, ht⟩ := Option.isSome_iff_exists.mp
      (Text.isSome_slice?_iff.mpr ⟨hforward, hstart, hstop⟩)
    exact ⟨[], t, by rw [bareAmong?, ht], .of_slice? ht⟩
  | cons c cs ih =>
    obtain ⟨hbehind, hapart⟩ := List.pairwise_cons.mp hapart
    obtain ⟨⟨hc, hle, cuts, inner, hinner, hcopied⟩, hcs⟩ := List.forall_mem_cons.mp hcs
    obtain ⟨before, hbefore⟩ := Option.isSome_iff_exists.mp (Text.isSome_slice?_iff.mpr
      ⟨hafter c List.mem_cons_self, hstart, hc.start_boundary⟩)
    obtain ⟨cuts', rest, hrest, hcopied'⟩ := ih hcs hapart hc.stop_boundary hle hbehind
    refine ⟨cuts ++ cuts', before ++ inner ++ rest, ?_, ?_⟩
    · rw [bareAmong?, hbefore, hinner, hrest]
      rfl
    · rw [List.flatMap_cons]
      exact (hcopied.behind hbefore).append hcopied'

/-- By induction on the structure: a child of each node is read back already, and a pattern cuts off
what stands behind the child that it binds. -/
theorem Sound.copiesBare {n : Node} (h : n.Sound source) : ∀ above : List Node,
    (∀ p ∈ Place.preorder above n, p.label.start < p.label.stop) → n.CopiesBare source := by
  induction h with
  | @node l cs hl below ordered inside bound ih =>
    intro above hwidth
    rw [Place.preorder, List.forall_mem_cons] at hwidth
    have hread (c : Node) (hc : c ∈ cs) : c.CopiesBare source :=
      ih c hc _ fun p hp => hwidth.2 p (Place.mem_preorderAll_iff.mpr ⟨c, hc, hp⟩)
    have hstop (c : Node) (hc : c ∈ cs) : c.label.stop ≤ l.stop :=
      (inside c hc).2 (hwidth.2 _ (Place.mem_preorderAll_of_mem hc))
    cases hbound : (Node.node l cs).bound? with
    | some c =>
      have hmem := mem_of_bound? hbound
      have hc := (below c hmem).label_sound
      obtain ⟨cuts, t, ht, hcopied⟩ := hread c hmem
      obtain ⟨before, hbefore⟩ := Option.isSome_iff_exists.mp (Text.isSome_slice?_iff.mpr
        ⟨(inside c hmem).1, hl.start_boundary, hc.start_boundary⟩)
      refine ⟨cuts ++ [(c.label.stop, l.stop)], before ++ t, bare?_of_bound hbound hbefore ht, ?_⟩
      rw [defaultSpans_of_bound hbound]
      exact (hcopied.behind hbefore).cutOff (hstop c hmem) hc.stop_boundary hl.stop_boundary
    | none =>
      obtain ⟨cuts, t, ht, hcopied⟩ := copiesBare_among hl.stop_boundary
        (fun c hc => ⟨(below c hc).label_sound, hstop c hc, hread c hc⟩) ordered hl.start_boundary
        hl.start_le fun c hc => (inside c hc).1
      refine ⟨cuts, t, (bare?_of_unbound hbound).trans ht, ?_⟩
      rw [defaultSpans_of_unbound hbound]
      exact hcopied

/-- A text that a node is read back as, by searching and sorting as well as by structure. Within a
default value that is dropped nothing is looked for. -/
structure ReadsBack (source : Text) (n : Node) (t : Text) : Prop where
  searched : copyAround? source n.label.start n.label.stop
    ((searchDefaults [n]).mergeSort spanPrecedes) = some t
  withoutDefaults : n.withoutDefaults? source = some t
  bare : n.bare? source = some t
  unvisited : ∀ c, n.bound? = some c → ∀ s ∈ n.defaultSpans,
    s = (c.label.stop, n.label.stop) ∨ s ∈ c.defaultSpans ∧ s.2 ≤ c.label.stop

theorem CopiesBare.readsBack {n : Node} (h : n.CopiesBare source) (hn : n.Sound source) :
    ∃ t, n.ReadsBack source t := by
  obtain ⟨cuts, t, ht, hcopied⟩ := h
  have hsearched : (searchDefaults [n]).Perm n.defaultSpans := by
    have hperm := searchDefaults_perm [n]
    rwa [List.flatMap_singleton] at hperm
  have hfound : CopiesAround source n.label.start n.label.stop (searchDefaults [n]) cuts t :=
    { hcopied with perm := hcopied.perm.trans hsearched.symm }
  refine ⟨t, ?_, ?_, ht, fun c hbound s hs => ?_⟩
  · rw [hfound.mergeSort_found]
    exact hfound.copied
  · rw [withoutDefaults?, hcopied.mergeSort_found]
    exact hcopied.copied
  · rw [defaultSpans_of_bound hbound, List.mem_cons] at hs
    have hc := spread_defaultSpans (hn.of_mem (mem_of_bound? hbound))
    exact hs.imp_right fun hs => ⟨hs, (hc.within s hs).le_stop⟩

end Node

/-- Every node of a tree can be read back without default values where no row of the table is
empty. -/
theorem ParseTable.WellFormed.nodes_read_back {table : ParseTable} (h : table.WellFormed)
    (hboundaries : ∀ row ∈ table.rows,
      table.text.isBoundary row.token.start = true ∧ table.text.isBoundary row.token.stop = true)
    (hwidth : ∀ row ∈ table.rows, row.token.start < row.token.stop) :
    ∃ parse, table.parse? = some parse ∧
      ∀ p ∈ (Tree.ofParse table.text parse).places, ∃ t, p.node.ReadsBack table.text t := by
  obtain ⟨parse, hparse, hrows, hnested, hplain⟩ := h.exists_nested hboundaries
  refine ⟨parse, hparse, fun p hp => ?_⟩
  have hcontent : ∀ q ∈ (Tree.ofParse table.text parse).places, q.label.start < q.label.stop := by
    intro q hq
    obtain ⟨i, row, -, hrow, hmade⟩ := Tree.madeOf_ofParse hnested hq
    rw [← hrows] at hrow
    exact hmade.content (hwidth row (List.mem_of_getElem? hrow))
  have hbelow : ∀ q ∈ Place.preorder p.above p.node, q.label.start < q.label.stop :=
    fun q hq => hcontent q (Tree.preorder_subset_places hp hq)
  have hsound : p.node.Sound table.text := by
    refine (Tree.ordered_of_mem_places (Tree.ordered_ofParse hnested hplain) hp).sound p.above ?_
    intro q hq
    exact ⟨Tree.labelsSound_ofParse hnested q (Tree.preorder_subset_places hp hq), hbelow q hq⟩
  exact (hsound.copiesBare p.above hbelow).readsBack hsound

/-- A parameter with default values: one of them stands within what another one is for, and one
within another default value. -/
def nestedDefaults : ParseTable where
  grammar := .javascript
  text := "(\x7ba: [b = 1] = [], c = (d = 2) => d\x7d) => b".toList
  hasErrors := false
  rows := [
    ⟨none, "program", true, none, 0, 42, none⟩,
    ⟨some 0, "expression_statement", true, none, 0, 42, none⟩,
    ⟨some 1, "arrow_function", true, none, 0, 42, none⟩,
    ⟨some 2, "formal_parameters", true, some "parameters", 0, 37, none⟩,
    ⟨some 3, "(", false, none, 0, 1, none⟩,
    ⟨some 3, "object_pattern", true, none, 1, 36, none⟩,
    ⟨some 5, "\x7b", false, none, 1, 2, none⟩,
    ⟨some 5, "pair_pattern", true, none, 2, 17, none⟩,
    ⟨some 7, "property_identifier", true, some "key", 2, 3, none⟩,
    ⟨some 7, ":", false, none, 3, 4, none⟩,
    ⟨some 7, "assignment_pattern", true, some "value", 5, 17, none⟩,
    ⟨some 10, "array_pattern", true, some "left", 5, 12, none⟩,
    ⟨some 11, "[", false, none, 5, 6, none⟩,
    ⟨some 11, "assignment_pattern", true, none, 6, 11, none⟩,
    ⟨some 13, "identifier", true, some "left", 6, 7, none⟩,
    ⟨some 13, "=", false, none, 8, 9, none⟩,
    ⟨some 13, "number", true, some "right", 10, 11, none⟩,
    ⟨some 11, "]", false, none, 11, 12, none⟩,
    ⟨some 10, "=", false, none, 13, 14, none⟩,
    ⟨some 10, "array", true, some "right", 15, 17, none⟩,
    ⟨some 19, "[", false, none, 15, 16, none⟩,
    ⟨some 19, "]", false, none, 16, 17, none⟩,
    ⟨some 5, ",", false, none, 17, 18, none⟩,
    ⟨some 5, "object_assignment_pattern", true, none, 19, 35, none⟩,
    ⟨some 23, "shorthand_property_identifier_pattern", true, some "left", 19, 20, none⟩,
    ⟨some 23, "=", false, none, 21, 22, none⟩,
    ⟨some 23, "arrow_function", true, some "right", 23, 35, none⟩,
    ⟨some 26, "formal_parameters", true, some "parameters", 23, 30, none⟩,
    ⟨some 27, "(", false, none, 23, 24, none⟩,
    ⟨some 27, "assignment_pattern", true, none, 24, 29, none⟩,
    ⟨some 29, "identifier", true, some "left", 24, 25, none⟩,
    ⟨some 29, "=", false, none, 26, 27, none⟩,
    ⟨some 29, "number", true, some "right", 28, 29, none⟩,
    ⟨some 27, ")", false, none, 29, 30, none⟩,
    ⟨some 26, "=>", false, none, 31, 33, none⟩,
    ⟨some 26, "identifier", true, some "body", 34, 35, none⟩,
    ⟨some 5, "\x7d", false, none, 35, 36, none⟩,
    ⟨some 3, ")", false, none, 36, 37, none⟩,
    ⟨some 2, "=>", false, none, 38, 40, none⟩,
    ⟨some 2, "identifier", true, some "body", 41, 42, none⟩]

/-- The pattern is read back as its names; the default value in a default value is not found. -/
theorem nestedDefaults_read_back : ∃ parse, nestedDefaults.parse? = some parse ∧
    ∃ p, (Tree.ofParse nestedDefaults.text parse).places[4]? = some p ∧
      p.node.ReadsBack nestedDefaults.text "\x7ba: [b], c\x7d".toList ∧
      p.node.defaultSpans = [(12, 17), (7, 11), (20, 35)] := by
  have hformed : nestedDefaults.WellFormed := by
    constructor <;> decide +kernel
  obtain ⟨parse, hparse, hread⟩ := hformed.nodes_read_back (by decide +kernel) (by decide +kernel)
  refine ⟨parse, hparse, ?_⟩
  cases hparse
  obtain ⟨t, ht⟩ := hread _ (List.getElem_mem (n := 4) (by decide +kernel))
  refine ⟨_, List.getElem?_eq_getElem (by decide +kernel), ?_, by decide +kernel⟩
  obtain rfl : t = "\x7ba: [b], c\x7d".toList := by
    refine Option.some.inj (ht.bare.symm.trans ?_)
    decide +kernel
  exact ht

end LogProbe
