import LogProbe.Proofs.Edit.Neighbours
import LogProbe.Proofs.Log.Innermost
import LogProbe.Proofs.Log.Removal

/-! The statements around removed logs. Logs that stand as statements go without a trace, and what
stood on both sides of them comes together. Whether the two are read as one expression is decided by
how the one ends and how the other begins, which the removal does not look at. -/
namespace LogProbe
open Edit Removal

theorem Node.Ordered.nests {n : Node} (h : n.Ordered) : n.Nests := by
  induction h with
  | node _ below siblings inside ih =>
    refine .node ih (siblings.imp_of_mem fun {a b} _ hb hle => ?_) fun c hc hwidth => ?_
    · have := (below b hb).fullStart_le
      omega
    · obtain ⟨-, hstart, hstop⟩ := inside c hc
      exact ⟨hstart, hstop hwidth⟩

/-- A place at or below a node has the node above it, or is at it. -/
theorem Place.node_mem_of_mem_preorder {n : Node} {above : List Node} {p : Place}
    (h : p ∈ preorder above n) : n ∈ p.node :: p.above := by
  obtain ⟨l, cs⟩ := n
  rw [preorder, List.mem_cons] at h
  rcases h with rfl | h
  · exact List.mem_cons_self
  · exact List.mem_cons_of_mem p.node ((suffix_of_mem_preorderAll h).subset List.mem_cons_self)

theorem Place.above_ne_nil {n parent : Node} {above : List Node} {p : Place}
    (h : p ∈ preorder (parent :: above) n) : p.above ≠ [] := by
  have hsuffix := suffix_of_mem_preorderAll
    (mem_preorderAll_iff.mpr ⟨n, List.mem_singleton_self n, h⟩)
  intro hroot
  simp [hroot] at hsuffix

namespace Tree

/-- A statement goes with a log that it is. -/
def Drops (t : Tree) (statement : Place) : Prop :=
  ∃ call ∈ t.logCalls, site call = .statement statement

/-- A node that does not go with a log, and that has ink at both ends. -/
structure Stays (t : Tree) (p : Place) : Prop where
  kept : ¬ t.Drops p
  ink : TakesInk t.source ⟨p.label.start, p.label.stop, []⟩

/-- What is not the statement of the only log stays. -/
theorem Stays.of_logCalls {t : Tree} {call statement p : Place} (hcalls : t.logCalls = [call])
    (hsite : site call = .statement statement) (hstart : p.label.start ≠ statement.label.start)
    (hink : TakesInk t.source ⟨p.label.start, p.label.stop, []⟩) : t.Stays p where
  kept := by
    rintro ⟨other, hother, hdropped⟩
    rw [hcalls, List.mem_singleton] at hother
    rw [hother, hsite] at hdropped
    obtain rfl := Site.statement.inj hdropped
    exact hstart rfl
  ink := hink

/-- The statements of every list but the outermost stand between braces. -/
def Braced (t : Tree) : Prop :=
  ∀ q ∈ t.places, q.above ≠ [] → q.kind = .statementBlock ∨ q.kind = .program →
    ∀ s ∈ q.node.children, s.kind = .expressionStatement →
      q.label.start < s.label.start ∧ s.label.stop < q.label.stop

variable {t : Tree}

/-- No log call is above a list that drops a statement: the log there would not be an outermost
one. -/
theorem Drops.not_isLogCall {p : Place} {s : Node} (h : t.Drops (p.below s)) :
    ∀ n ∈ p.node :: p.above, n.isLogCall t.source = false := by
  obtain ⟨call, hcall, hsite⟩ := h
  obtain ⟨hparent, -, -⟩ := site_eq_statement_iff.mp hsite
  obtain ⟨-, -, houtermost⟩ := mem_logCalls_iff.mp hcall
  obtain ⟨node, above⟩ := call
  cases above with
  | nil => cases hparent
  | cons parent above =>
    cases hparent
    exact fun n hn => houtermost n (List.mem_cons_of_mem s hn)

theorem Drops.kind {p : Place} {s : Node} (h : t.Drops (p.below s)) :
    p.kind = .statementBlock ∨ p.kind = .program := by
  obtain ⟨call, -, hsite⟩ := h
  obtain ⟨list, hlist, hkind⟩ := exists_list_of_site hsite
  obtain rfl : p = list := Option.some.inj hlist
  exact hkind

/-- What goes with a log is not at or above a list that drops a statement. -/
theorem Drops.not_mem_preorder {p : Place} {s : Node} (h : t.Drops (p.below s))
    (hsingle : t.SingleExpressions) {call : Place} (hcall : call ∈ t.logCalls) :
    p ∉ Place.preorder (cleared call).above (cleared call).node := by
  intro hp
  obtain ⟨hcallPlace, hlog, -⟩ := mem_logCalls_iff.mp hcall
  have hbelow : ∀ above, p ∉ Place.preorder above call.node := fun above hp => by
    have hnot := h.not_isLogCall call.node (Place.node_mem_of_mem_preorder hp)
    cases hlog.symm.trans hnot
  rcases cleared_eq_or call with hself | ⟨statement, hparent, hkind, hstatement⟩
  · rw [hself] at hp
    exact hbelow _ hp
  · have hone := hsingle statement (t.closed_places.parent hcallPlace hparent) hkind
    have hchild := mem_children_of_parent? hcallPlace hparent
    rw [hstatement] at hp
    obtain ⟨⟨l, cs⟩, above⟩ := statement
    rw [Place.preorder, List.mem_cons] at hp
    rcases hp with rfl | hp
    · rcases h.kind with hlist | hlist <;> cases hkind.symm.trans hlist
    · -- the statement holds nothing but the log
      obtain ⟨c, hcs⟩ := List.length_eq_one_iff.mp hone
      change cs = [c] at hcs
      change call.node ∈ cs at hchild
      obtain ⟨d, hd, hp⟩ := Place.mem_preorderAll_iff.mp hp
      rw [hcs, List.mem_singleton] at hchild hd
      rw [hd, ← hchild] at hp
      exact hbelow _ hp

section Apart
variable (h : t.LogsApart) {p : Place} (hp : p ∈ t.places)
include h hp

/-- What goes with a log within a child that stays lies within the child; a statement that goes is
not at its ends, since the braces of a list are around it. -/
theorem Stays.within {call : Place} {c : Node} (hstays : t.Stays (p.below c))
    (hbraced : t.Braced) (hcall : call ∈ t.logCalls) (hc : c ∈ p.node.children)
    (hmem : cleared call ∈ Place.preorder (p.below c).above c) :
    c.label.Contains (cleared call).label.start (cleared call).label.stop ∧
      (substitute call = [] → c.label.start < (cleared call).label.start ∧
        (cleared call).label.stop < c.label.stop) := by
  have hforward := (precedes_logCalls h.ordered h.single).2 call hcall
  have hchild := t.closed_places.below hp hc
  have hnests : c.Nests := h.ordered.nests.of_mem_preorder hchild
  refine ⟨hnests.within_of_mem_preorder hmem hforward, fun hgone => ?_⟩
  obtain ⟨statement, hsite⟩ := exists_statement_of_substitute hgone
  have hcleared : cleared call = statement := by rw [cleared, hsite]
  rw [hcleared] at hmem hforward ⊢
  obtain ⟨hparent, hkind, -⟩ := site_eq_statement_iff.mp hsite
  obtain ⟨list, hup, hlistKind⟩ := exists_list_of_site hsite
  rcases Place.parent_mem_preorder hup hmem with hself | hmem
  · have hself : statement = p.below c := hself
    rw [hself] at hsite
    exact absurd ⟨call, hcall, hsite⟩ hstays.kept
  · have hlistPlace : list ∈ t.places :=
      Place.forall_mem_preorder (S := (· ∈ t.places)) t.closed_places.below hchild hmem
    have hstatement : statement.node ∈ list.node.children :=
      mem_children_of_parent? (t.closed_places.parent (mem_logCalls_iff.mp hcall).1 hparent) hup
    have hinside := hbraced list hlistPlace (Place.above_ne_nil hmem) hlistKind statement.node
      hstatement hkind
    have hwidth : list.label.start < list.label.stop :=
      (hinside.1.trans hforward).trans hinside.2
    obtain ⟨hlow, hhigh⟩ := hnests.within_of_mem_preorder hmem hwidth
    exact ⟨Nat.lt_of_le_of_lt hlow hinside.1, Nat.lt_of_lt_of_le hinside.2 hhigh⟩

variable {s : Node} (hdrops : t.Drops (p.below s))
include hdrops

/-- What goes with a log lies within a child of a list that drops a statement, or apart from the
child. -/
theorem cleared_within_or_apart {call : Place} (hcall : call ∈ t.logCalls) {c : Node}
    (hc : c ∈ p.node.children) (hwidth : c.label.start < c.label.stop) :
    cleared call ∈ Place.preorder (p.below c).above c ∨
      (cleared call).label.stop ≤ c.label.start ∨ c.label.stop ≤ (cleared call).label.start := by
  have hforward := (precedes_logCalls h.ordered h.single).2 call hcall
  have hchild := t.closed_places.below hp hc
  rcases h.ordered.nests.nested_or_apart (cleared_mem_places hcall) hchild hforward hwidth
    with hwithin | habove | hapart
  · exact .inl hwithin
  · -- the child is at the cleared place, or the list is at or above it
    rcases Place.parent_mem_preorder (Place.parent?_below p c) habove with hself | habove
    · have hcleared : cleared call = p.below c := hself.symm
      rw [hcleared]
      exact .inl (Place.self_mem_preorder (p.below c).above c)
    · exact absurd habove (hdrops.not_mem_preorder h.single hcall)
  · exact .inr hapart

/-- So the removal of a log keeps clear of both ends of a child that stays. -/
theorem Stays.clear {c : Node} (hstays : t.Stays (p.below c)) (hbraced : t.Braced)
    (hc : c ∈ p.node.children) {call : Place} (hcall : call ∈ t.logCalls) :
    ClearOfEnd c.label.stop (bareEdit call) ∧ ClearOfStart c.label.start (bareEdit call) := by
  have hwidth : c.label.start < c.label.stop := hstays.ink.forward
  rcases cleared_within_or_apart h hp hdrops hcall hc hwidth with hmem | hbefore | hbehind
  · obtain ⟨⟨hlow, hhigh⟩, hstrict⟩ := hstays.within h hp hbraced hcall hc hmem
    by_cases hgone : substitute call = []
    · obtain ⟨hstart, hstop⟩ := hstrict hgone
      exact ⟨.inl hstop, .inr (.inr hstart)⟩
    · refine ⟨?_, ?_⟩
      · exact (Nat.lt_or_eq_of_le hhigh).imp id fun heq => .inl ⟨heq, hgone⟩
      · refine .inr ((Nat.lt_or_eq_of_le hlow).symm.imp (fun heq => ⟨heq.symm, hgone⟩) id)
  · exact ⟨.inl (Nat.lt_of_le_of_lt hbefore hwidth), .inl hbefore⟩
  · exact ⟨.inr (.inr hbehind), .inr (.inr (Nat.lt_of_lt_of_le hwidth hbehind))⟩

end Apart

end Tree

namespace Removal

/-- Whether a statement that ends with the character is over there. -/
def endsStatement (c : Char) : Bool := c == ';' || c == '\x7d'

/-- Whether an expression in front of the character goes on with it, even over line breaks. -/
def continuesExpression (c : Char) : Bool := c == '(' || c == '[' || c == '\x60'

/-- A statement that ends with the one character is read on into one that starts with the other. -/
def RunsInto (last first : Option Char) : Prop :=
  last.any (!endsStatement ·) = true ∧ first.any continuesExpression = true

/-- How the removal of the logs leaves a text in front of an offset, up to a second one and behind
that: each part has edits of its own. What the text ends with at the first offset, and starts with
at the second, is what it has there in the source or what takes the place of a log there. -/
structure Meeting (t : Tree) (n k : Nat) (edits : List Edit) (left between right : Text) :
    Prop where
  parts : ∃ upper middle lower, edits.reverse = upper ++ middle ++ lower ∧
    stretch? t.source n 0 upper = some left ∧ stretch? t.source k n middle = some between ∧
    stretch? t.source t.source.size k lower = some right
  last : left.getLast? = lastAt? t.source (t.logCalls.map bareEdit) n
  first : right.head? = firstAt? t.source (t.logCalls.map bareEdit) k
  ink : ∃ gaps, stretch? t.source k n ((t.logCalls.map bareEdit).filter fun e =>
      decide (n ≤ e.start) && decide (e.stop ≤ k)) = some gaps ∧ between.ink = gaps.ink

section Meeting
variable {t : Tree} (h : t.LogsApart)
include h

/-- Two offsets with ink at them, of which all logs keep clear. -/
theorem exists_meeting {n k : Nat} (hn : t.source.isBoundary n = true)
    (hbefore : Text.IsInk (t.source.charBefore? n)) (hk : t.source.isBoundary k = true)
    (hafter : Text.IsInk (t.source.charAfter? k)) (hpos : 0 < n) (hnk : n ≤ k)
    (hend : k < t.source.size)
    (hclear : ∀ call ∈ t.logCalls, ClearOfEnd n (bareEdit call) ∧ ClearOfStart k (bareEdit call)) :
    ∃ edits left between right, plan? t = some edits ∧
      applyAll t.source edits = .ok (left ++ between ++ right) ∧
      Meeting t n k edits left between right := by
  obtain ⟨edits, result, hedits, hwidens, hdescending, hresult, hsplice⟩ := exists_removed h
  have hwidened : Widened t.source (t.logCalls.map bareEdit) edits.reverse := by
    refine ⟨hwidens, ?_, List.pairwise_reverse.mpr (hdescending.imp fun hxe => hxe.2)⟩
    rw [List.forall_mem_map]
    exact fun call hcall => (takesInk_bareEdit h hcall).forward
  have hclearEnd : ∀ e ∈ t.logCalls.map bareEdit, ClearOfEnd n e :=
    List.forall_mem_map.mpr fun call hcall => (hclear call hcall).1
  have hclearStart : ∀ e ∈ t.logCalls.map bareEdit, ClearOfStart k e :=
    List.forall_mem_map.mpr fun call hcall => (hclear call hcall).2
  obtain ⟨upper, middle, lower, left, between, right, gaps, horder, hleft, hbetween, hright, htext,
    hlast, hfirst, hgaps, hink⟩ := hwidened.exists_parts hn hbefore hk hafter hpos hnk hend
      hclearEnd hclearStart hsplice
  exact ⟨edits, left, between, right, hedits, htext ▸ hresult,
    ⟨upper, middle, lower, horder, hleft, hbetween, hright⟩, hlast, hfirst, gaps, hgaps, hink⟩

/-- Two nodes of a list that stay, and a statement between them that goes. -/
theorem exists_meeting_of_list (hbraced : t.Braced) {p : Place} (hp : p ∈ t.places)
    {front run back : List Node} {b a : Node}
    (hlist : p.node.children = front ++ b :: run ++ a :: back)
    (hdrops : ∃ s ∈ run, t.Drops (p.below s)) (hb : t.Stays (p.below b))
    (ha : t.Stays (p.below a)) :
    ∃ edits left between right, plan? t = some edits ∧
      applyAll t.source edits = .ok (left ++ between ++ right) ∧
      Meeting t b.label.stop a.label.start edits left between right := by
  obtain ⟨s, -, hdrops⟩ := hdrops
  have hbMem : b ∈ p.node.children := by simp [hlist]
  have haMem : a ∈ p.node.children := by simp [hlist]
  have hbefore := hb.ink.fits
  have hafter := ha.ink.fits
  have hbwidth : b.label.start < b.label.stop := hb.ink.forward
  have hawidth : a.label.start < a.label.stop := ha.ink.forward
  have hapart : b.label.stop ≤ a.label.start := by
    have hsiblings := (h.ordered.nests.of_mem_preorder hp).siblings
    rw [hlist, List.pairwise_append] at hsiblings
    exact hsiblings.2.2 b (by simp) a (by simp)
  exact exists_meeting h hbefore.stopBoundary hb.ink.isInk.2 hafter.startBoundary ha.ink.isInk.1
    (Nat.zero_lt_of_lt hbwidth) hapart (Nat.lt_of_lt_of_le hawidth hafter.inside)
    fun call hcall => ⟨(hb.clear h hp hdrops hbraced hbMem hcall).1,
      (ha.clear h hp hdrops hbraced haMem hcall).2⟩

end Meeting

/-- In a list of statements a log goes without a trace. Between two nodes around it that stay the
text is left as in the source, but for logs and blanks. The first of the two ends as in the source,
or with what takes the place of a log at its end, and the second one starts in that way. So the first
is read on into the second exactly if it does not end a statement and the second continues an
expression: the removal puts nothing between them that would keep them apart. -/
theorem statements_meet (source : Text) (parse : Parse)
    (hnested : parse.root.nested source = true) (hplain : parse.root.plainSiblings = true)
    (hsingle : (Tree.ofParse source parse).SingleExpressions)
    (htrimmed : (Tree.ofParse source parse).LogsTrimmed)
    (hbraced : (Tree.ofParse source parse).Braced) {p : Place}
    (hp : p ∈ (Tree.ofParse source parse).places) {front run back : List Node} {b a : Node}
    (hlist : p.node.children = front ++ b :: run ++ a :: back)
    (hdrops : ∃ s ∈ run, (Tree.ofParse source parse).Drops (p.below s))
    (hb : (Tree.ofParse source parse).Stays (p.below b))
    (ha : (Tree.ofParse source parse).Stays (p.below a)) :
    ∃ edits left between right, plan? (.ofParse source parse) = some edits ∧
      applyAll source edits = .ok (left ++ between ++ right) ∧
      Meeting (.ofParse source parse) b.label.stop a.label.start edits left between right ∧
      (RunsInto left.getLast? right.head? ↔
        RunsInto
          (lastAt? source ((Tree.ofParse source parse).logCalls.map bareEdit) b.label.stop)
          (firstAt? source ((Tree.ofParse source parse).logCalls.map bareEdit) a.label.start)) := by
  have h := Tree.logsApart_ofParse hnested hplain hsingle htrimmed
  obtain ⟨edits, left, between, right, hedits, hresult, hmeeting⟩ :=
    exists_meeting_of_list h hbraced hp hlist hdrops hb ha
  refine ⟨edits, left, between, right, hedits, hresult, hmeeting, ?_⟩
  rw [hmeeting.last, hmeeting.first]
  rfl

/-- A log between a statement without a semicolon and one that starts with a parenthesis. -/
def arrowBehindLog : ParseTable where
  grammar := .javascript
  text := "a\nconsole.log(1);\n(b) => c;\n".toList
  hasErrors := false
  rows := [
    ⟨none, "program", true, none, 0, 28, none⟩,
    ⟨some 0, "expression_statement", true, none, 0, 1, none⟩,
    ⟨some 1, "identifier", true, none, 0, 1, none⟩,
    ⟨some 0, "expression_statement", true, none, 2, 17, none⟩] ++
    logRows 4 3 2 none ++ [
    ⟨some 3, ";", false, none, 16, 17, none⟩,
    ⟨some 0, "expression_statement", true, none, 18, 27, none⟩,
    ⟨some 14, "arrow_function", true, none, 18, 26, none⟩,
    ⟨some 15, "formal_parameters", true, some "parameters", 18, 21, none⟩,
    ⟨some 16, "(", false, none, 18, 19, none⟩,
    ⟨some 16, "identifier", true, none, 19, 20, none⟩,
    ⟨some 16, ")", false, none, 20, 21, none⟩,
    ⟨some 15, "=>", false, none, 22, 24, none⟩,
    ⟨some 15, "identifier", true, some "body", 25, 26, none⟩,
    ⟨some 14, ";", false, none, 26, 27, none⟩]

theorem arrowBehindLog_parse : ∃ parse b s a, arrowBehindLog.parse? = some parse ∧
    parse.hasErrors = false ∧
    parse.root.nested arrowBehindLog.text = true ∧ parse.root.plainSiblings = true ∧
    (Tree.ofParse arrowBehindLog.text parse).SingleExpressions ∧
    (Tree.ofParse arrowBehindLog.text parse).LogsTrimmed ∧
    (Tree.ofParse arrowBehindLog.text parse).Braced ∧
    (Tree.ofParse arrowBehindLog.text parse).root.children = [b, s, a] ∧
    b.label.stop = 1 ∧ a.label.start = 18 ∧
    plan? (.ofParse arrowBehindLog.text parse) = some [⟨2, 18, []⟩] ∧
    (Tree.ofParse arrowBehindLog.text parse).logCalls.map bareEdit = [⟨2, 17, []⟩] ∧
    (Tree.ofParse arrowBehindLog.text parse).Drops
      ((Tree.ofParse arrowBehindLog.text parse).rootPlace.below s) ∧
    (Tree.ofParse arrowBehindLog.text parse).Stays
      ((Tree.ofParse arrowBehindLog.text parse).rootPlace.below b) ∧
    (Tree.ofParse arrowBehindLog.text parse).Stays
      ((Tree.ofParse arrowBehindLog.text parse).rootPlace.below a) := by
  refine ⟨_, _, _, _, rfl, rfl, by decide +kernel, by decide +kernel, ?_, ?_, ?_, rfl, rfl, rfl,
    (plan?_of_logCalls rfl).trans (by decide +kernel), by decide +kernel,
    ⟨_, List.mem_singleton_self _, rfl⟩, ?_, ?_⟩
  · unfold Tree.SingleExpressions
    decide +kernel
  · unfold Tree.LogsTrimmed
    decide +kernel
  · unfold Tree.Braced
    decide +kernel
  · exact .of_logCalls rfl rfl (by decide +kernel) ⟨by decide, "a".toList, rfl, rfl⟩
  · exact .of_logCalls rfl rfl (by decide +kernel) ⟨by decide, "(b) => c;".toList, rfl, rfl⟩

/-- Nothing keeps the name and the parameters of the arrow function apart. -/
theorem arrowBehindLog_meet :
    ∃ parse edits left between right, arrowBehindLog.parse? = some parse ∧
      plan? (.ofParse arrowBehindLog.text parse) = some edits ∧
      applyAll arrowBehindLog.text edits = .ok (left ++ between ++ right) ∧
      left.getLast? = some 'a' ∧ right.head? = some '(' ∧
      RunsInto left.getLast? right.head? := by
  obtain ⟨parse, b, s, a, hparse, -, hnested, hplain, hsingle, htrimmed, hbraced, hlist, hbstop,
    hastart, -, hbare, hdrops, hb, ha⟩ := arrowBehindLog_parse
  have hlist : (Tree.ofParse arrowBehindLog.text parse).rootPlace.node.children =
      [] ++ b :: [s] ++ a :: [] := hlist
  obtain ⟨edits, left, between, right, hedits, hresult, hmeeting, hruns⟩ :=
    statements_meet arrowBehindLog.text parse hnested hplain hsingle htrimmed hbraced
      (Tree.rootPlace_mem_places _) hlist ⟨s, List.mem_singleton_self s, hdrops⟩ hb ha
  rw [hbare, hbstop, hastart] at hruns
  have hlast := hmeeting.last
  have hfirst := hmeeting.first
  rw [hbare, hbstop] at hlast
  rw [hbare, hastart] at hfirst
  exact ⟨parse, edits, left, between, right, hparse, hedits, hresult, hlast, hfirst,
    hruns.mpr (by unfold RunsInto; decide)⟩

/-- The statement behind the log becomes the arguments of a call of the one in front of it, and the
text is no program any more. -/
theorem arrowBehindLog_joins :
    ∃ parse b s a, arrowBehindLog.parse? = some parse ∧ parse.hasErrors = false ∧
      (Tree.ofParse arrowBehindLog.text parse).root.children = [b, s, a] ∧
      (Tree.ofParse arrowBehindLog.text parse).Drops
        ((Tree.ofParse arrowBehindLog.text parse).rootPlace.below s) ∧
      (Tree.ofParse arrowBehindLog.text parse).Stays
        ((Tree.ofParse arrowBehindLog.text parse).rootPlace.below b) ∧
      (Tree.ofParse arrowBehindLog.text parse).Stays
        ((Tree.ofParse arrowBehindLog.text parse).rootPlace.below a) ∧
      plan? (.ofParse arrowBehindLog.text parse) = some [⟨2, 18, []⟩] ∧
      applyAll arrowBehindLog.text [⟨2, 18, []⟩] = .ok "a\n(b) => c;\n".toList ∧
      RunsInto (arrowBehindLog.text.charBefore? b.label.stop) (some '(') := by
  obtain ⟨parse, b, s, a, hparse, herrors, -, -, -, -, -, hlist, hbstop, hastart, hplan, -, hdrops,
    hb, ha⟩ := arrowBehindLog_parse
  refine ⟨parse, b, s, a, hparse, herrors, hlist, hdrops, hb, ha, hplan, ?_, ?_⟩
  · exact applyAll_one "a\n".toList "console.log(1);\n".toList "(b) => c;\n".toList rfl rfl
  · rw [hbstop]
    unfold RunsInto
    decide

end Removal
end LogProbe
