import LogProbe.Proofs.Edit.Widening
import LogProbe.Proofs.Log.Calls
import Mathlib.Data.List.Nodup

/-! What the removal of the logs of a text takes from it: the logs and what goes with them, and
around these nothing but blanks. -/
namespace LogProbe
namespace Removal
open Edit

/-- What is put in the place of a log. -/
def substitute (call : Place) : Text :=
  match site call with
  | .statement _ => []
  | .emptyBlock => "\x7b\x7d".toList
  | .neutral => "void 0".toList
  | .neutralObject => "(void 0)".toList

/-- Only a statement goes without a trace. -/
theorem exists_statement_of_substitute {call : Place} (h : substitute call = []) :
    ∃ statement, site call = .statement statement := by
  rw [substitute] at h
  split at h
  · exact ⟨_, ‹_›⟩
  all_goals simp at h

/-- The removal of a log, and of what goes with it, to the character. -/
def bareEdit (call : Place) : Edit :=
  ⟨(cleared call).label.start, (cleared call).label.stop, substitute call⟩

variable {source : Text}

/-- What is alone on its lines goes with these. -/
theorem widens_lines {n k : Nat} {first last : LineView} (hfirst : LineView.Shows source n first)
    (hlast : LineView.Shows source k last) (hforward : n ≤ k) (hstart : first.contentStart = n)
    (hrest : last.tail.dropReturn.all isPadding = true) :
    Widens source ⟨n, k, []⟩ ⟨first.start, last.stopWithBreak, []⟩ := by
  obtain ⟨feed, rest, hbelow, hfeed⟩ : ∃ feed rest, last.below = feed ++ rest ∧
      (feed = [] ∧ rest = [] ∨ feed = ['\n']) := by
    rcases hlast.below_feed with hnil | ⟨rest, hrest⟩
    · exact ⟨[], [], hnil, .inl ⟨rfl, rfl⟩⟩
    · exact ⟨['\n'], rest, hrest, .inr rfl⟩
  have htext : source = last.above ++ last.head ++ (last.tail ++ feed) ++ rest := by
    rw [hlast.text, hbelow]
    simp
  have hstop : last.stopWithBreak = Text.size (last.above ++ last.head ++ (last.tail ++ feed)) := by
    rw [LineView.stopWithBreak, hbelow]
    rcases hfeed with ⟨rfl, rfl⟩ | rfl <;> simp
  refine ⟨rfl, hforward, ⟨first.head, ?_, hfirst.all_head_isPadding hstart⟩,
    ⟨last.tail, feed, ?_, LineView.all_isLayout_of_dropReturn hrest, hlast.tail_feed, ?_⟩,
    .inr ⟨hfirst.starts, ?_, rfl⟩⟩
  · exact Text.slice?_eq_some_iff.mpr ⟨first.above, first.tail ++ first.below,
      by simp [hfirst.text], rfl, hfirst.offset⟩
  · exact Text.slice?_eq_some_iff.mpr ⟨_, rest, htext, hlast.offset, hstop.symm⟩
  · exact hfeed.imp_left (·.1)
  · change source.StartsLine last.stopWithBreak ∨ last.stopWithBreak = source.size
    rcases hfeed with ⟨rfl, rfl⟩ | rfl
    · exact .inr (by rw [hstop, htext, List.append_nil (_ ++ _)])
    · refine .inl ?_
      rw [htext, hstop, Text.startsLine_size_iff]
      exact .inr (by simp)

theorem exists_ofStatement? {statement : Label}
    (h : Edit.Fits source ⟨statement.start, statement.stop, []⟩) :
    ∃ e, ofStatement? source statement = some e ∧
      Widens source ⟨statement.start, statement.stop, []⟩ e := by
  obtain ⟨first, hfirst⟩ := LineView.exists_at? h.startBoundary
  obtain ⟨last, hlast⟩ := LineView.exists_at? h.stopBoundary
  simp only [ofStatement?, hfirst, hlast, Option.bind_eq_bind, Option.bind_some, Option.pure_def,
    Bool.and_eq_true, beq_iff_eq]
  split
  · rename_i halone
    exact ⟨_, rfl, widens_lines (LineView.shows_of_at? hfirst) (LineView.shows_of_at? hlast)
      h.forward halone.1 halone.2⟩
  · exact ⟨_, rfl, h.widens⟩

theorem exists_edit? {call : Place} (h : (bareEdit call).Fits source) :
    ∃ e, edit? source call = some e ∧ Widens source (bareEdit call) e := by
  rw [edit?]
  cases hsite : site call with
  | statement place =>
    have hbare : bareEdit call = ⟨place.label.start, place.label.stop, []⟩ := by
      rw [bareEdit, cleared, substitute, hsite]
    rw [hbare] at h ⊢
    exact exists_ofStatement? h
  | _ =>
    refine ⟨bareEdit call, ?_, h.widens⟩
    rw [bareEdit, cleared, substitute, hsite]

end Removal

/-- The logs of a tree, and the expression statements that hold them, start and end with ink. -/
def Tree.LogsTrimmed (t : Tree) : Prop :=
  ∀ call ∈ t.logCalls,
    ∀ p ∈ call :: (call.parent?.filter (·.kind == .expressionStatement)).toList,
      (p.text? t.source).all Text.isTrimmed = true

/-- A tree in the order of its text, whose logs can be told apart from the blanks around them. -/
structure Tree.LogsApart (t : Tree) : Prop where
  labels : t.LabelsSound
  ordered : t.root.Ordered
  single : t.SingleExpressions
  trimmed : t.LogsTrimmed

theorem Tree.logsApart_ofParse {source : Text} {parse : Parse}
    (hnested : parse.root.nested source = true) (hplain : parse.root.plainSiblings = true)
    (hsingle : (Tree.ofParse source parse).SingleExpressions)
    (htrimmed : (Tree.ofParse source parse).LogsTrimmed) :
    (Tree.ofParse source parse).LogsApart :=
  ⟨Tree.labelsSound_ofParse hnested, Tree.ordered_ofParse hnested hplain, hsingle, htrimmed⟩

namespace Removal
open Edit

/-- The plan of a log that is the only one. -/
theorem plan?_of_logCalls {t : Tree} {call : Place} (hcalls : t.logCalls = [call]) :
    plan? t = (edit? t.source call).map fun e => [e] := by
  rw [plan?, hcalls, List.mergeSort_singleton, List.mapM_cons, List.mapM_nil]
  cases edit? t.source call <;> rfl

section Apart
variable {t : Tree} (h : t.LogsApart)
include h

theorem takesInk_bareEdit {call : Place} (hcall : call ∈ t.logCalls) :
    (bareEdit call).TakesInk t.source := by
  have hforward := (Tree.precedes_logCalls h.ordered h.single).2 call hcall
  have hcleared : ((cleared call).text? t.source).all Text.isTrimmed = true := by
    rcases cleared_eq_or call with hself | ⟨statement, hparent, hkind, hstatement⟩
    · rw [hself]
      exact h.trimmed call hcall call (List.mem_cons_self ..)
    · rw [hstatement]
      refine h.trimmed call hcall statement ?_
      simp [hparent, Option.filter, hkind]
  obtain ⟨m, hm⟩ := (h.labels _ (cleared_mem_places hcall)).text
  have hslice : (cleared call).text? t.source = some m := hm
  refine ⟨hforward, m, hm, ?_⟩
  simpa [hslice] using hcleared

/-- The bottom-first order of the logs is that of the tree reversed. -/
theorem mergeSort_logCalls :
    t.logCalls.mergeSort (fun a b => b.label.fullStart ≤ a.label.fullStart) =
      t.logCalls.reverse := by
  have hascending := (Tree.precedes_logCalls h.ordered h.single).1
  have hnodup : (t.logCalls.map (·.label.fullStart)).Nodup :=
    List.pairwise_map.mpr (hascending.imp fun hpq => Nat.ne_of_lt hpq.fullStart_lt)
  have hsorted : (t.logCalls.mergeSort fun a b => b.label.fullStart ≤ a.label.fullStart).Pairwise
      fun a b => decide (b.label.fullStart ≤ a.label.fullStart) = true :=
    List.pairwise_mergeSort
      (fun a b c hab hbc => by simp only [decide_eq_true_eq] at *; omega)
      (fun a b => by simp only [Bool.or_eq_true, decide_eq_true_eq]; omega) t.logCalls
  refine List.Perm.eq_of_pairwise (fun a b ha hb hab hba => ?_) hsorted
    (List.pairwise_reverse.mpr (hascending.imp fun hpq => ?_))
    ((List.mergeSort_perm _ _).trans (List.reverse_perm _).symm)
  · simp only [decide_eq_true_eq] at hab hba
    exact List.inj_on_of_nodup_map hnodup (List.mem_mergeSort.mp ha) (List.mem_reverse.mp hb)
      (by omega)
  · simpa using Nat.le_of_lt hpq.fullStart_lt

/-- There is a plan; each of its edits removes a log with its lines, from the bottom up. -/
theorem exists_plan? : ∃ edits, plan? t = some edits ∧
    List.Forall₂ (Widens t.source) (t.logCalls.reverse.map bareEdit) edits := by
  rw [plan?, mergeSort_logCalls h]
  have hall : ∀ call ∈ t.logCalls.reverse, (bareEdit call).TakesInk t.source :=
    fun call hcall => takesInk_bareEdit h (List.mem_reverse.mp hcall)
  generalize t.logCalls.reverse = calls at hall ⊢
  induction calls with
  | nil => exact ⟨[], rfl, .nil⟩
  | cons call calls ih =>
    rw [List.forall_mem_cons] at hall
    obtain ⟨e, he, hwidens⟩ := exists_edit? hall.1.fits
    obtain ⟨edits, hedits, hforall⟩ := ih hall.2
    exact ⟨e :: edits, by simp [he, hedits], .cons hwidens hforall⟩

/-- The plan is accepted: its edits go from the bottom up and stay apart. -/
theorem exists_removed : ∃ edits result, plan? t = some edits ∧
    List.Forall₂ (Widens t.source) (t.logCalls.map bareEdit) edits.reverse ∧
    (edits.Pairwise fun x e => e.start < x.start ∧ e.stop ≤ x.start) ∧
    applyAll t.source edits = .ok result ∧ splice? t.source 0 edits.reverse = some result := by
  obtain ⟨edits, hedits, hwidens⟩ := exists_plan? h
  have hdescending := pairwise_of_widens hwidens
    (fun e he => by
      obtain ⟨call, hcall, rfl⟩ := List.mem_map.mp he
      exact takesInk_bareEdit h (List.mem_reverse.mp hcall))
    (by
      rw [List.pairwise_map, List.pairwise_reverse]
      exact (Tree.precedes_logCalls h.ordered h.single).1.imp fun hpq => hpq.stop_le)
  have hfits : ∀ e ∈ edits, e.Fits t.source := fun e he => by
    obtain ⟨bare, -, hbare⟩ := exists_widens_of_mem hwidens he
    exact hbare.fits
  obtain ⟨result, hresult, hsplice⟩ :=
    exists_applyAll_of_descending hfits (hdescending.imp fun hxe => hxe.2)
  have hreverse := List.rel_reverse hwidens
  rw [List.map_reverse, List.reverse_reverse] at hreverse
  exact ⟨edits, result, hedits, hreverse, hdescending, hresult, hsplice⟩

end Apart

/-- The removal of the logs of a text whose nodes nest and name their siblings gives a text with the
ink of the source in which every log, and the statement that goes with it, is replaced to the
character. A line of the source that meets none of these is a line of the result. -/
theorem takes_logs_and_blanks (source : Text) (parse : Parse)
    (hnested : parse.root.nested source = true) (hplain : parse.root.plainSiblings = true)
    (hsingle : (Tree.ofParse source parse).SingleExpressions)
    (htrimmed : (Tree.ofParse source parse).LogsTrimmed) :
    ∃ edits t bare, plan? (.ofParse source parse) = some edits ∧
      applyAll source edits = .ok t ∧
      splice? source 0 ((Tree.ofParse source parse).logCalls.map bareEdit) = some bare ∧
      t.ink = bare.ink ∧
      ∀ above line below, Text.IsLine source above line below →
        (∀ call ∈ (Tree.ofParse source parse).logCalls,
          (cleared call).label.stop ≤ above.size ∨
            (above ++ line).size ≤ (cleared call).label.start) →
        KeepsLine source edits.reverse t above line := by
  have h := Tree.logsApart_ofParse hnested hplain hsingle htrimmed
  obtain ⟨edits, t, hedits, hwidens, hdescending, ht, hsplice⟩ := exists_removed h
  obtain ⟨bare, hbare, hink⟩ := ink_splice? hwidens (Text.slice?_self (Text.isBoundary_zero _)) rfl
    hsplice
  refine ⟨edits, t, bare, hedits, ht, hbare, hink.symm, fun above line below hline hout => ?_⟩
  refine keepsLine_of_widens hwidens (fun e he => ?_)
    (List.pairwise_reverse.mpr (hdescending.imp fun hxe => hxe.2)) hsplice hline fun e he => ?_
  · obtain ⟨call, hcall, rfl⟩ := List.mem_map.mp he
    exact takesInk_bareEdit h hcall
  · obtain ⟨call, hcall, rfl⟩ := List.mem_map.mp he
    exact hout call hcall

/-- The rows of a log of a digit, from row `i` on. -/
def logRows (i parent offset : Nat) (field : Option String) : List Row := [
  ⟨some parent, "call_expression", true, field, offset, offset + 14, none⟩,
  ⟨some i, "member_expression", true, some "function", offset, offset + 11, none⟩,
  ⟨some (i + 1), "identifier", true, some "object", offset, offset + 7, none⟩,
  ⟨some (i + 1), ".", false, none, offset + 7, offset + 8, none⟩,
  ⟨some (i + 1), "property_identifier", true, some "property", offset + 8, offset + 11, none⟩,
  ⟨some i, "arguments", true, some "arguments", offset + 11, offset + 14, none⟩,
  ⟨some (i + 5), "(", false, none, offset + 11, offset + 12, none⟩,
  ⟨some (i + 5), "number", true, none, offset + 12, offset + 13, none⟩,
  ⟨some (i + 5), ")", false, none, offset + 13, offset + 14, none⟩]

/-- Two logs on one line, one of them a value, and a log alone on a line. -/
def threeLogs : ParseTable where
  grammar := .javascript
  text := "console.log(1); x = console.log(2)\n  a\n\tconsole.log(3)\r\nb\n".toList
  hasErrors := false
  rows := [
    ⟨none, "program", true, none, 0, 58, none⟩,
    ⟨some 0, "expression_statement", true, none, 0, 15, none⟩] ++
    logRows 2 1 0 none ++ [
    ⟨some 1, ";", false, none, 14, 15, none⟩,
    ⟨some 0, "expression_statement", true, none, 16, 34, none⟩,
    ⟨some 12, "assignment_expression", true, none, 16, 34, none⟩,
    ⟨some 13, "identifier", true, some "left", 16, 17, none⟩,
    ⟨some 13, "=", false, none, 18, 19, none⟩] ++
    logRows 16 13 20 (some "right") ++ [
    ⟨some 0, "expression_statement", true, none, 37, 38, none⟩,
    ⟨some 25, "identifier", true, none, 37, 38, none⟩,
    ⟨some 0, "expression_statement", true, none, 40, 54, none⟩] ++
    logRows 28 27 40 none ++ [
    ⟨some 0, "expression_statement", true, none, 56, 57, none⟩,
    ⟨some 37, "identifier", true, none, 56, 57, none⟩]

theorem threeLogs_parse : ∃ parse, threeLogs.parse? = some parse ∧
    parse.root.nested threeLogs.text = true ∧ parse.root.plainSiblings = true ∧
    (Tree.ofParse threeLogs.text parse).SingleExpressions ∧
    (Tree.ofParse threeLogs.text parse).LogsTrimmed ∧
    ((Tree.ofParse threeLogs.text parse).logCalls.map bareEdit) =
      [⟨0, 15, []⟩, ⟨20, 34, "void 0".toList⟩, ⟨40, 54, []⟩] := by
  refine ⟨_, rfl, by decide +kernel, by decide +kernel, ?_, ?_, by decide +kernel⟩
  · unfold Tree.SingleExpressions
    decide +kernel
  · unfold Tree.LogsTrimmed
    decide +kernel

/-- The line between the logs is kept. -/
theorem threeLogs_line_kept :
    ∃ parse edits t, threeLogs.parse? = some parse ∧
      plan? (.ofParse threeLogs.text parse) = some edits ∧
      applyAll threeLogs.text edits = .ok t ∧ t.ink = "x=void0ab".toList ∧
      KeepsLine threeLogs.text edits.reverse t
        "console.log(1); x = console.log(2)\n".toList "  a\n".toList := by
  obtain ⟨parse, hparse, hnested, hplain, hsingle, htrimmed, hbare⟩ := threeLogs_parse
  obtain ⟨edits, t, bare, hedits, ht, hsplice, hink, hlines⟩ :=
    takes_logs_and_blanks threeLogs.text parse hnested hplain hsingle htrimmed
  rw [hbare] at hsplice
  obtain rfl : " x = void 0\n  a\n\t\r\nb\n".toList = bare := Option.some.inj hsplice
  have hline : Text.IsLine threeLogs.text "console.log(1); x = console.log(2)\n".toList
      "  a\n".toList "\tconsole.log(3)\r\nb\n".toList :=
    ⟨rfl, .inr rfl, by decide, .inl rfl⟩
  have hout : ∀ e ∈ (Tree.ofParse threeLogs.text parse).logCalls.map bareEdit,
      e.stop ≤ 35 ∨ 39 ≤ e.start := by
    rw [hbare]
    decide
  exact ⟨parse, edits, t, hparse, hedits, ht, hink,
    hlines _ _ _ hline fun call hcall => hout _ (List.mem_map_of_mem hcall)⟩

end Removal
end LogProbe
