import LogProbe.Log.Removal
import LogProbe.Proofs.Syntax.Order

/-! The logs of a tree. Those that are removed are the log calls that no other one holds; in the
order of the tree each of them, and the statement that goes with it, stands behind the one before.
-/
namespace LogProbe

/-- A log call that no other log call holds. -/
def Place.isOutermostLog (source : Text) (p : Place) : Bool :=
  p.node.isLogCall source && !p.above.any (·.isLogCall source)

namespace Place
variable {source : Text}

theorem isOutermostLog_eq_false {above : List Node} {p : Place} (h : above <:+ p.above)
    (hlog : above.any (·.isLogCall source) = true) : p.isOutermostLog source = false := by
  obtain ⟨n, hn, hcall⟩ := List.any_eq_true.mp hlog
  have habove : p.above.any (·.isLogCall source) = true :=
    List.any_eq_true.mpr ⟨n, h.subset hn, hcall⟩
  simp [isOutermostLog, habove]

end Place

namespace Node
variable {source : Text}

theorem logCallsAll_eq_flatMap (above cs : List Node) :
    logCallsAll source above cs = cs.flatMap (logCalls source above) := by
  induction cs with
  | nil => rfl
  | cons c cs ih => rw [logCallsAll, ih, List.flatMap_cons]

theorem logCalls_of_isLogCall {n : Node} (above : List Node) (h : n.isLogCall source = true) :
    n.logCalls source above = [⟨n, above⟩] := by
  cases n
  rw [logCalls, if_pos h]

mutual

theorem logCalls_eq_filter {above : List Node}
    (habove : above.any (·.isLogCall source) = false) : ∀ n : Node,
    n.logCalls source above = (Place.preorder above n).filter (·.isOutermostLog source)
  | .node l cs => by
    rw [logCalls, Place.preorder]
    split
    · rename_i hlog
      have hself : Place.isOutermostLog source ⟨.node l cs, above⟩ = true := by
        simp [Place.isOutermostLog, hlog, habove]
      have hbelow : (Place.preorderAll (.node l cs :: above) cs).filter
          (·.isOutermostLog source) = [] := by
        refine List.filter_eq_nil_iff.mpr fun p hp => ?_
        rw [Place.isOutermostLog_eq_false (Place.suffix_of_mem_preorderAll hp)
          (by simp [hlog])]
        exact Bool.false_ne_true
      rw [List.filter_cons_of_pos hself, hbelow]
    · rename_i hlog
      have hself : ¬ Place.isOutermostLog source ⟨.node l cs, above⟩ = true := by
        simp [Place.isOutermostLog, hlog]
      rw [List.filter_cons_of_neg hself]
      exact logCallsAll_eq_filter (by simp [hlog, habove]) cs

theorem logCallsAll_eq_filter {above : List Node}
    (habove : above.any (·.isLogCall source) = false) : ∀ cs : List Node,
    logCallsAll source above cs = (Place.preorderAll above cs).filter (·.isOutermostLog source)
  | [] => rfl
  | c :: cs => by
    rw [logCallsAll, Place.preorderAll, List.filter_append, logCalls_eq_filter habove c,
      logCallsAll_eq_filter habove cs]

end

/-- A log call has content, that of its names at least. -/
theorem Ordered.content_of_isLogCall {n : Node} (h : n.Ordered)
    (hlog : n.isLogCall source = true) : n.label.start < n.label.stop := by
  simp only [isLogCall, Bool.and_eq_true, Option.any_eq_true] at hlog
  obtain ⟨-, callee, hcallee, ⟨-, object, hobject, -, htext⟩, -⟩ := hlog
  have hmem := List.mem_of_find?_eq_some hcallee
  have hmem' := List.mem_of_find?_eq_some hobject
  have hcontent : object.label.start < object.label.stop := by
    obtain ⟨a, b, -, hstart, hstop⟩ := Text.slice?_eq_some_iff.mp (beq_iff_eq.mp htext)
    have hsize : Text.size "console".toList = 7 := rfl
    rw [Text.size_append, hsize] at hstop
    omega
  have hwithin := (h.of_mem hmem).within hmem' hcontent
  have hwithin' := h.within hmem (by omega)
  omega

end Node

theorem Tree.logCalls_eq_filter (t : Tree) :
    t.logCalls = t.places.filter (·.isOutermostLog t.source) :=
  Node.logCalls_eq_filter rfl t.root

/-- The logs of a tree are the log calls that are not within another one. -/
theorem Tree.mem_logCalls_iff {t : Tree} {call : Place} : call ∈ t.logCalls ↔
    call ∈ t.places ∧ call.node.isLogCall t.source = true ∧
      ∀ n ∈ call.above, n.isLogCall t.source = false := by
  rw [t.logCalls_eq_filter, List.mem_filter, Place.isOutermostLog, Bool.and_eq_true,
    Bool.not_eq_true', List.any_eq_false]
  simp

theorem Tree.length_logCalls (t : Tree) :
    t.logCalls.length = t.places.countP (·.isOutermostLog t.source) := by
  rw [t.logCalls_eq_filter, ← List.countP_eq_length_filter]

/-- Every expression statement holds one node. -/
def Tree.SingleExpressions (t : Tree) : Prop :=
  ∀ p ∈ t.places, p.kind = .expressionStatement → p.node.children.length = 1

namespace Removal
open Node

/-- What goes with a log: the statement that it is, or the log alone. -/
def cleared (call : Place) : Place :=
  match site call with
  | .statement place => place
  | _ => call

theorem site_eq_statement_iff {call statement : Place} : site call = .statement statement ↔
    call.parent? = some statement ∧ statement.kind = .expressionStatement ∧
      (statement.parentKind? = some .statementBlock ∨ statement.parentKind? = some .program) := by
  constructor
  · intro h
    rw [site] at h
    cases hparent : call.parent? with
    | none => simp [hparent] at h
    | some parent =>
      simp only [hparent] at h
      generalize houter : (if parent.kind == .expressionStatement then parent.parentKind? else none) =
        outer? at h
      split at h
      · rename_i hstands
        cases h
        by_cases hkind : statement.kind = .expressionStatement
        · rw [if_pos (beq_iff_eq.mpr hkind)] at houter
          exact ⟨rfl, hkind, by simpa [houter] using hstands⟩
        · -- only an expression statement has a list of statements around it
          rw [if_neg (by simpa using hkind)] at houter
          simp [← houter] at hstands
      · split at h
        · cases h
        · split at h <;> cases h
  · rintro ⟨hparent, hkind, houter⟩
    simp only [site, hparent, hkind]
    rcases houter with houter | houter <;> simp [houter]

theorem cleared_eq_or (call : Place) : cleared call = call ∨
    ∃ statement, call.parent? = some statement ∧ statement.kind = .expressionStatement ∧
      cleared call = statement := by
  rw [cleared]
  split
  · rename_i statement hsite
    obtain ⟨hparent, hkind, -⟩ := site_eq_statement_iff.mp hsite
    exact .inr ⟨statement, hparent, hkind, rfl⟩
  · exact .inl rfl

/-- A statement that goes stands in a list of statements. -/
theorem exists_list_of_site {call statement : Place} (h : site call = .statement statement) :
    ∃ list, statement.parent? = some list ∧
      (list.kind = .statementBlock ∨ list.kind = .program) := by
  obtain ⟨-, -, hblock | hprogram⟩ := site_eq_statement_iff.mp h
  · obtain ⟨list, hlist, hkind⟩ := Option.map_eq_some_iff.mp hblock
    exact ⟨list, hlist, .inl hkind⟩
  · obtain ⟨list, hlist, hkind⟩ := Option.map_eq_some_iff.mp hprogram
    exact ⟨list, hlist, .inr hkind⟩

theorem cleared_mem_places {t : Tree} {call : Place} (hcall : call ∈ t.logCalls) :
    cleared call ∈ t.places := by
  have hmem := (Tree.mem_logCalls_iff.mp hcall).1
  rcases cleared_eq_or call with hself | ⟨statement, hparent, -, hstatement⟩
  · rwa [hself]
  · rw [hstatement]
    exact t.closed_places.parent hmem hparent

/-- A log stands in front of another one, and what goes with it ends before what goes with the
other. -/
structure Precedes (p q : Place) : Prop where
  fullStart_lt : p.label.fullStart < q.label.fullStart
  stop_le : (cleared p).label.stop ≤ (cleared q).label.start

/-- What goes with a log is not empty and lies within a node. -/
structure Within (l : Label) (p : Place) : Prop where
  le_fullStart : l.fullStart ≤ p.label.fullStart
  fullStart_lt : p.label.fullStart < l.stop
  le_start : l.start ≤ (cleared p).label.start
  forward : (cleared p).label.start < (cleared p).label.stop
  stop_le : (cleared p).label.stop ≤ l.stop

variable {source : Text} {l : Label} {cs : List Node} {c : Node} {p : Place}

/-- A log that goes alone. -/
theorem within_self {above : List Node} (h : c.Ordered) (hlog : c.isLogCall source = true)
    (hcleared : cleared ⟨c, above⟩ = ⟨c, above⟩) : Within c.label ⟨c, above⟩ := by
  have hcontent := h.content_of_isLogCall hlog
  have hfull := h.fullStart_le
  refine ⟨Nat.le_refl _, Nat.lt_of_le_of_lt hfull hcontent, ?_, ?_, ?_⟩ <;> rw [hcleared]
  · exact Nat.le_refl _
  · exact hcontent
  · exact Nat.le_refl _

/-- A statement that goes with the log that it holds. -/
theorem within_statement {above : List Node} (hn : (Node.node l cs).Ordered) (hc : c ∈ cs)
    (hlog : c.isLogCall source = true)
    (hcleared : cleared ⟨c, .node l cs :: above⟩ = ⟨.node l cs, above⟩) :
    Within l ⟨c, .node l cs :: above⟩ := by
  have hcontent := (hn.of_mem hc).content_of_isLogCall hlog
  cases hn with
  | node _ below _ inside =>
    obtain ⟨hfull, hstart, hstop⟩ := inside c hc
    have hwithin := hstop hcontent
    have hfull' := (below c hc).fullStart_le
    have hforward : l.start < l.stop := by omega
    have hlt : c.label.fullStart < l.stop := by omega
    refine ⟨hfull, hlt, ?_, ?_, ?_⟩ <;> rw [hcleared]
    · exact Nat.le_refl _
    · exact hforward
    · exact Nat.le_refl _

theorem Within.of_child (h : Within c.label p) (hn : (Node.node l cs).Ordered) (hc : c ∈ cs) :
    Within l p := by
  obtain ⟨hfull, hlt, hstart, hforward, hstop⟩ := h
  have hcontent : c.label.start < c.label.stop := by omega
  cases hn with
  | node _ _ _ inside =>
    obtain ⟨hfull', hstart', hstop'⟩ := inside c hc
    have hwithin := hstop' hcontent
    exact ⟨by omega, by omega, by omega, hforward, by omega⟩

/-- Logs, each with what goes with it, one behind the other within a node. -/
def Spread (l : Label) (calls : List Place) : Prop :=
  calls.Pairwise Precedes ∧ ∀ p ∈ calls, Within l p

theorem Spread.singleton (h : Within l p) : Spread l [p] :=
  ⟨List.pairwise_singleton _ _, by simpa using h⟩

/-- Logs within siblings are spread over their parent. -/
theorem Spread.of_children {above : List Node} (hn : (Node.node l cs).Ordered)
    (h : ∀ c ∈ cs, Spread c.label (c.logCalls source above)) :
    Spread l (logCallsAll source above cs) := by
  rw [logCallsAll_eq_flatMap]
  refine ⟨List.pairwise_flatMap.mpr ⟨fun c hc => (h c hc).1, ?_⟩, fun p hp => ?_⟩
  · cases hn with
    | node _ below siblings _ =>
      refine siblings.imp_of_mem fun {a b} ha hb hle p hp q hq => ?_
      obtain ⟨-, hlt, -, -, hstop⟩ := (h a ha).2 p hp
      obtain ⟨hfull, -, hstart, -, -⟩ := (h b hb).2 q hq
      have hfull' := (below b hb).fullStart_le
      exact ⟨by omega, by omega⟩
  · obtain ⟨c, hc, hp⟩ := List.mem_flatMap.mp hp
    exact ((h c hc).2 p hp).of_child hn hc

/-- The logs below a node that is none itself are spread over the node. -/
theorem spread_logCalls {n : Node} (h : n.Ordered) : ∀ above : List Node,
    (∀ p ∈ Place.preorder above n, p.kind = .expressionStatement → p.node.children.length = 1) →
      n.isLogCall source = false → Spread n.label (n.logCalls source above) := by
  -- a log may take its parent with it, and then it is the only child there: the parent is the node
  -- of this step, so that what the children need is within them
  induction h with
  | @node l cs fullStart_le below siblings inside ih =>
    intro above hsingle hnot
    have hn : (Node.node l cs).Ordered := .node fullStart_le below siblings inside
    rw [logCalls, if_neg (by simp [hnot])]
    rw [Place.preorder, List.forall_mem_cons] at hsingle
    have hbelow : ∀ c ∈ cs, c.isLogCall source = false →
        Spread c.label (c.logCalls source (.node l cs :: above)) := fun c hc hlog =>
      ih c hc _ (fun p hp => hsingle.2 p (Place.mem_preorderAll_iff.mpr ⟨c, hc, hp⟩)) hlog
    by_cases hkind : l.kind = .expressionStatement
    · obtain ⟨c, rfl⟩ := List.length_eq_one_iff.mp (hsingle.1 hkind)
      rw [logCallsAll_eq_flatMap, List.flatMap_singleton]
      cases hlog : c.isLogCall source with
      | false =>
        have hspread := hbelow c (List.mem_singleton_self c) hlog
        exact ⟨hspread.1, fun p hp => (hspread.2 p hp).of_child hn (List.mem_singleton_self c)⟩
      | true =>
        rw [logCalls_of_isLogCall _ hlog]
        refine .singleton ?_
        rcases cleared_eq_or ⟨c, .node l [c] :: above⟩ with hself | ⟨s, hparent, -, hstatement⟩
        · exact (within_self (hn.of_mem (List.mem_singleton_self c)) hlog hself).of_child hn
            (List.mem_singleton_self c)
        · cases hparent
          exact within_statement hn (List.mem_singleton_self c) hlog hstatement
    · refine .of_children hn fun c hc => ?_
      cases hlog : c.isLogCall source with
      | false => exact hbelow c hc hlog
      | true =>
        rw [logCalls_of_isLogCall _ hlog]
        refine .singleton (within_self (hn.of_mem hc) hlog ?_)
        refine (cleared_eq_or _).resolve_right ?_
        rintro ⟨s, hparent, hother, -⟩
        cases hparent
        exact hkind hother

end Removal

/-- The logs of a tree come in the order of the text, and so does what goes with them. -/
theorem Tree.precedes_logCalls {t : Tree} (h : t.root.Ordered) (hsingle : t.SingleExpressions) :
    t.logCalls.Pairwise Removal.Precedes ∧ ∀ p ∈ t.logCalls,
      (Removal.cleared p).label.start < (Removal.cleared p).label.stop := by
  cases hlog : t.root.isLogCall t.source with
  | false =>
    have hspread := Removal.spread_logCalls h [] hsingle hlog
    exact ⟨hspread.1, fun p hp => (hspread.2 p hp).forward⟩
  | true =>
    rw [Tree.logCalls, Node.logCalls_of_isLogCall [] hlog]
    refine ⟨List.pairwise_singleton _ _, fun p hp => ?_⟩
    obtain rfl := List.mem_singleton.mp hp
    exact h.content_of_isLogCall hlog

end LogProbe
