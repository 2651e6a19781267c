import LogProbe.Proofs.Log.Removal
import LogProbe.Proofs.Syntax.Arena

/-! The search for the logs of a tree. It keeps a stack of places still to visit and does not go
below a log. What is still to be found at any time are the outermost logs below the places on the
stack, one place after the other; so the search finds each outermost log of the tree once, in the
order of the tree. -/
namespace LogProbe

namespace Place
variable {source : Text}

theorem map_node_children (p : Place) : p.children.map (·.node) = p.node.children := by
  rw [children, List.map_map]
  exact List.map_id _

/-- The search with a stack of places still to visit: a log on top of it is found, and any other
place gives way to its children. -/
def searchLogs (source : Text) : List Place → List Place
  | [] => []
  | p :: stack =>
    if p.node.isLogCall source then p :: searchLogs source stack
    else searchLogs source (p.children ++ stack)
termination_by stack => Node.sizeAll (stack.map (·.node))
decreasing_by
  all_goals
    have hsize := p.node.size_eq
    simp only [List.map_cons, List.map_append, map_node_children, Node.sizeAll,
      Node.sizeAll_append]
    omega

/-- What is found from a stack on: the logs below each of its places in turn. -/
theorem searchLogs_eq_flatMap (stack : List Place) :
    searchLogs source stack = stack.flatMap fun p => p.node.logCalls source p.above := by
  induction stack using searchLogs.induct source with
  | case1 => rw [searchLogs, List.flatMap_nil]
  | case2 p stack hlog ih =>
    rw [searchLogs, if_pos hlog, ih, List.flatMap_cons, Node.logCalls_of_isLogCall _ hlog]
    rfl
  | case3 p stack hlog ih =>
    rw [searchLogs, if_neg hlog, ih, List.flatMap_append, List.flatMap_cons, children,
      List.flatMap_map]
    refine congrArg (· ++ _) ?_
    obtain ⟨⟨l, cs⟩, above⟩ := p
    rw [Node.logCalls, if_neg hlog, Node.logCallsAll_eq_flatMap]
    rfl

end Place

namespace Tree

theorem logCalls_eq_searchLogs (t : Tree) :
    t.logCalls = Place.searchLogs t.source [t.rootPlace] := by
  rw [Place.searchLogs_eq_flatMap, List.flatMap_singleton]
  rfl

/-- What a search for logs is to find: the log calls that no other log call is above, each of them
once, in the order of the tree. -/
structure FindsLogs (t : Tree) (found : List Place) : Prop where
  mem_iff : ∀ p, p ∈ found ↔ p ∈ t.places ∧ p.node.isLogCall t.source = true ∧
    ∀ n ∈ p.above, n.isLogCall t.source = false
  sublist : found.Sublist t.places
  ascending : (found.map (·.label.index)).Pairwise (· < ·)

/-- In a tree whose nodes are numbered in preorder the search finds the outermost logs. -/
theorem search_finds_outermost {t : Tree} {count : Nat}
    (hnumbered : t.places.map (·.label.index) = List.range count) :
    t.FindsLogs t.logCalls ∧ Place.searchLogs t.source [t.rootPlace] = t.logCalls := by
  have hsublist : t.logCalls.Sublist t.places := by
    rw [t.logCalls_eq_filter]
    exact List.filter_sublist
  have hall : (t.places.map (·.label.index)).Pairwise (· < ·) :=
    hnumbered ▸ List.pairwise_lt_range
  refine ⟨⟨fun p => mem_logCalls_iff, hsublist, ?_⟩, t.logCalls_eq_searchLogs.symm⟩
  exact hall.sublist (hsublist.map (·.label.index))

/-- A log that is called, with a log in its argument that holds another one. -/
def calledLog : ParseTable where
  grammar := .javascript
  text := "console.log(1)(console.log(console.log(2)))".toList
  hasErrors := false
  rows := [
    ⟨none, "program", true, none, 0, 43, none⟩,
    ⟨some 0, "expression_statement", true, none, 0, 43, none⟩,
    ⟨some 1, "call_expression", true, none, 0, 43, none⟩] ++
    Removal.logRows 3 2 0 (some "function") ++ [
    ⟨some 2, "arguments", true, some "arguments", 14, 43, none⟩,
    ⟨some 12, "(", false, none, 14, 15, none⟩,
    ⟨some 12, "call_expression", true, none, 15, 42, none⟩,
    ⟨some 14, "member_expression", true, some "function", 15, 26, none⟩,
    ⟨some 15, "identifier", true, some "object", 15, 22, none⟩,
    ⟨some 15, ".", false, none, 22, 23, none⟩,
    ⟨some 15, "property_identifier", true, some "property", 23, 26, none⟩,
    ⟨some 14, "arguments", true, some "arguments", 26, 42, none⟩,
    ⟨some 19, "(", false, none, 26, 27, none⟩] ++
    Removal.logRows 21 19 27 none ++ [
    ⟨some 19, ")", false, none, 41, 42, none⟩,
    ⟨some 12, ")", false, none, 42, 43, none⟩]

/-- The log that is called is found, and of those in the argument the outer one. -/
theorem calledLog_search : ∃ parse, calledLog.parse? = some parse ∧
    (ofParse calledLog.text parse).places.map (·.label.index) = List.range 21 ∧
    (ofParse calledLog.text parse).FindsLogs (ofParse calledLog.text parse).logCalls ∧
    (ofParse calledLog.text parse).logCalls.map (·.label.index) = [3, 10] := by
  refine ⟨_, rfl, ?_, ?_, ?_⟩
  · decide +kernel
  · exact (search_finds_outermost (numbered_ofParse _ _)).1
  · decide +kernel

end Tree
end LogProbe
