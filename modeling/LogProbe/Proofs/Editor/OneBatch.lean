import LogProbe.Proofs.Editor.Run

/-! When the insertion of logs acts as one batch. The editor carries out the rounds of the plan one
after the other; they act as the one batch of all its padded edits and its snippets exactly if the
plan is in step. -/
namespace LogProbe
open Edit Insertion

namespace Editor

/-- Carrying out a plan gives the text that one batch of all its edits and snippets gives. -/
def ActsAsOneBatch (e : Editor) (plan padded : List Insertion) : Prop :=
  ∃ t, applyAll e.text (padded.map footprint) = .ok t ∧
    Settles (Command.performAll perform (e.reading.schedule [] plan) e) (.ok t)

theorem actsAsOneBatch_of_inStep {e : Editor} {plan padded : List Insertion}
    (h : Sound e.text plan) (hpadded : plan.mapM (padded? e.indent e.text) = some padded)
    (hstep : InStep plan) : ActsAsOneBatch e plan padded := by
  have hshape := map_shape_of_mapM hpadded
  have hsound := h.of_shape hshape fun _ => id
  obtain ⟨t, ht⟩ := exists_applyAll_of_sound hsound
  refine ⟨t, ht, ?_⟩
  rw [← ht, ← applyRounds_of_inStep hsound ((inStep_congr hshape).mpr hstep)]
  exact settles_schedule hpadded [] e

theorem mapM_padded?_line {plan : List Insertion} {n : Nat}
    (h : ∀ x ∈ plan, x.footprint.start ≤ n ∧ '\n' ∉ x.footprint.text) :
    plan.mapM (padded? {} (List.replicate n 'x')) = some plan := by
  induction plan with
  | nil => rfl
  | cons x rest ih =>
    obtain ⟨hstart, hline⟩ := h x (by simp)
    have hx : x.padded? {} (List.replicate n 'x') = some x := by
      cases x with
      | edit e => exact congrArg (Option.map edit) (Indent.reindentEdit?_line hstart hline)
      | snippet site s => rfl
    rw [List.mapM_cons, hx, ih fun y hy => h y (by simp [hy])]
    rfl

/-- A plan out of step does not act as one batch for all texts. -/
theorem exists_not_actsAsOneBatch {source : Text} {plan : List Insertion} (h : Sound source plan)
    (hstep : ¬ InStep plan) :
    ∃ (e : Editor) (plan' padded : List Insertion), plan'.map shape = plan.map shape ∧
      Sound e.text plan' ∧ plan'.mapM (padded? e.indent e.text) = some padded ∧
      ¬ ActsAsOneBatch e plan' padded := by
  obtain ⟨fill, hfill, hfails⟩ := exists_refill_of_not_inStep h hstep
  have hnot : ∀ {c : Char}, c ≠ ' ' → c ≠ 'é' → ∀ k, c ∉ fill k := fun hblank haccent k hc =>
    (hfill k _ hc).elim hblank haccent
  let e : Editor := { languageId := "", text := List.replicate source.size 'x' }
  have hshape : (plan.map (Insertion.refill fill)).map shape = plan.map shape := by
    rw [List.map_map]
    exact List.map_congr_left fun x _ => shape_refill fill x
  have hsound : Sound e.text (plan.map (Insertion.refill fill)) := by
    refine h.of_shape hshape fun n hn => ?_
    rw [Text.isBoundary, Text.cut?_replicate rfl (Text.le_size_of_isBoundary hn)]
    rfl
  have hpadded : (plan.map (Insertion.refill fill)).mapM (padded? e.indent e.text) =
      some (plan.map (Insertion.refill fill)) := by
    refine mapM_padded?_line fun x hx => ?_
    obtain ⟨y, hy, rfl⟩ := List.mem_map.mp hx
    have hfits := h.fits y hy
    rw [footprint_refill (hnot (by decide) (by decide))]
    exact ⟨Nat.le_trans hfits.forward hfits.inside, hnot (by decide) (by decide) _⟩
  refine ⟨e, _, _, hshape, hsound, hpadded, ?_⟩
  rintro ⟨t, -, hsettles⟩
  have hrun := settles_schedule (r := e.reading) hpadded [] e
  cases hrounds : applyRounds e.text (rounds [] (plan.map (Insertion.refill fill))) with
  | ok t' => exact hfails _ _ hrounds
  | error failure =>
    rw [hrounds] at hrun
    cases hsettles.2.symm.trans hrun

/-- On a text whose parse is well placed, with selections between boundaries, planning returns
exactly if the search for every target ends, and success means that the plan was made and padded.
The padded plan is accepted as one batch. If the plan is in step, the insertion succeeds with the
text of that batch; if it is not, the insertion fails for some text and some insertions that take
the same spans. -/
theorem insertLogs_one_batch (parser : Parser) (e : Editor) (dialect : Dialect) (parse : Parse)
    (hdialect : Dialect.ofLanguageId? e.languageId = some dialect)
    (hparse : parser dialect.grammar e.text = .ok (some parse))
    (hplaced : parse.root.wellPlaced e.text = true)
    (hin : ∀ s ∈ e.selections, s.LiesIn e.text) :
    ((∃ plan, Insertion.plan (.ofParse e.text parse) e.selections = .ok plan) ↔
      ∀ s ∈ e.selections, SearchEnds (.ofParse e.text parse) s) ∧
    ((∃ report, (e.insertLogs parser).2 = .ok report) → ∃ plan padded,
      Insertion.plan (.ofParse e.text parse) e.selections = .ok plan ∧
        plan.mapM (padded? e.indent e.text) = some padded) ∧
    ∀ plan padded, Insertion.plan (.ofParse e.text parse) e.selections = .ok plan →
      plan.mapM (padded? e.indent e.text) = some padded →
      (∃ t, applyAll e.text (padded.map footprint) = .ok t ∧
        (InStep plan →
          (∃ report, (e.insertLogs parser).2 = .ok report) ∧ (e.insertLogs parser).1.text = t)) ∧
      (InStep plan ↔ ∀ (e' : Editor) (plan' padded' : List Insertion),
        plan'.map shape = plan.map shape → Sound e'.text plan' →
          plan'.mapM (padded? e'.indent e'.text) = some padded' →
            ActsAsOneBatch e' plan' padded') := by
  have htree := Parser.document?_eq hdialect hparse
  have hroot : (Tree.ofParse e.text parse).root.Sound e.text := Tree.sound_ofParse hplaced
  refine ⟨exists_plan_iff hroot, ?_, ?_⟩
  · rintro ⟨report, hreport⟩
    cases hplan : Insertion.plan (.ofParse e.text parse) e.selections with
    | error failure =>
      rw [insertLogs_of_error htree hplan] at hreport
      cases hreport
    | ok plan =>
      cases hpadded : plan.mapM (padded? e.indent e.text) with
      | some padded => exact ⟨plan, padded, rfl, hpadded⟩
      | none =>
        have hfails := performAll_schedule_ne_none (r := e.reading) hpadded [] e
        exact absurd ((insertLogs_spec htree hplan).2.mp ⟨report, hreport⟩) hfails
  · intro plan padded hplan hpadded
    have hsound : Sound e.text plan := sound_of_plan (Tree.labelsSound_of_sound hroot) hin hplan
    have hshape := map_shape_of_mapM hpadded
    refine ⟨?_, ?_, ?_⟩
    · obtain ⟨t, ht⟩ := exists_applyAll_of_sound (hsound.of_shape hshape fun _ => id)
      refine ⟨t, ht, fun hstep => ?_⟩
      obtain ⟨t', ht', htext, hok⟩ := actsAsOneBatch_of_inStep hsound hpadded hstep
      obtain rfl : t' = t := Except.ok.inj (ht'.symm.trans ht)
      obtain ⟨hrun, hreport⟩ := insertLogs_spec htree hplan
      exact ⟨hreport.mpr hok, hrun.trans htext⟩
    · intro hstep e' plan' padded' hplan' hsound' hpadded'
      exact actsAsOneBatch_of_inStep hsound' hpadded' ((inStep_congr hplan').mpr hstep)
    · intro hall
      refine Classical.byContradiction fun hstep => ?_
      obtain ⟨e', plan', padded', hplan', hsound', hpadded', hnot⟩ :=
        exists_not_actsAsOneBatch hsound hstep
      exact hnot (hall e' plan' padded' hplan' hsound' hpadded')

/-- An arrow function with an empty body, assigned to a name. -/
def assignedArrow : ParseTable where
  grammar := .javascript
  text := "x = () => \x7b\n\n\x7d;\n".toList
  hasErrors := false
  rows := [
    ⟨none, "program", true, none, 0, 16, none⟩,
    ⟨some 0, "expression_statement", true, none, 0, 15, none⟩,
    ⟨some 1, "assignment_expression", true, none, 0, 14, none⟩,
    ⟨some 2, "identifier", true, some "left", 0, 1, none⟩,
    ⟨some 2, "=", false, none, 2, 3, none⟩,
    ⟨some 2, "arrow_function", true, some "right", 4, 14, none⟩,
    ⟨some 5, "formal_parameters", true, some "parameters", 4, 6, none⟩,
    ⟨some 6, "(", false, none, 4, 5, none⟩,
    ⟨some 6, ")", false, none, 5, 6, none⟩,
    ⟨some 5, "=>", false, none, 7, 9, none⟩,
    ⟨some 5, "statement_block", true, some "body", 10, 14, none⟩,
    ⟨some 10, "\x7b", false, none, 10, 11, none⟩,
    ⟨some 10, "\x7d", false, none, 13, 14, none⟩,
    ⟨some 1, ";", false, none, 14, 15, none⟩]

/-- A cursor in the body of the function, and others. -/
def arrowEditor (others : List Selection) : Editor where
  languageId := "javascript"
  text := assignedArrow.text
  selections := .cursor 12 :: others

def bodySnippet : Insertion := .snippet (.cursor 12) logSnippet

/-- The log for the name, behind the whole statement. -/
def nameLog : Insertion := .edit (.insertion 15 "\nconsole.log('*** x »', x)".toList)

theorem assignedArrow_plans :
    ∃ parse, Parser.ofTables [assignedArrow] .javascript assignedArrow.text = .ok (some parse) ∧
      parse.root.wellPlaced assignedArrow.text = true ∧
      Insertion.plan (.ofParse assignedArrow.text parse) (arrowEditor []).selections =
        .ok [bodySnippet] ∧
      Insertion.plan (.ofParse assignedArrow.text parse) (arrowEditor [.cursor 0]).selections =
        .ok [bodySnippet, nameLog] := by
  refine ⟨_, rfl, by decide +kernel, ?_, ?_⟩
  all_goals
    rw [Insertion.plan, Selection.bottomFirst, List.mergeSort_of_pairwise (by decide)]
    rfl

theorem insertLogs_in_arrow_body :
    ((arrowEditor []).insertLogs (Parser.ofTables [assignedArrow])).1.text =
      "x = () => \x7b\nconsole.log()\n\x7d;\n".toList := by
  obtain ⟨parse, hparse, hplaced, hplan, -⟩ := assignedArrow_plans
  have hpadded : [bodySnippet].mapM (padded? {} assignedArrow.text) = some [bodySnippet] := rfl
  obtain ⟨-, -, hbatch⟩ := insertLogs_one_batch _ (arrowEditor []) .js parse
    (Dialect.ofLanguageId?_languageId .js) hparse hplaced (by decide)
  obtain ⟨⟨t, ht, hrun⟩, -⟩ := hbatch _ _ hplan hpadded
  have hone : applyAll assignedArrow.text [bodySnippet.footprint] =
      .ok "x = () => \x7b\nconsole.log()\n\x7d;\n".toList := by
    rw [applyAll_singleton]
    rfl
  rw [(hrun (List.pairwise_singleton _ _)).2]
  exact Except.ok.inj (ht.symm.trans hone)

/-- The statement ends below the snippet in its body, so its log is planned later and lands within
what the snippet has put there. -/
theorem nested_cursors_not_one_batch :
    ∃ parse plan padded,
      Parser.ofTables [assignedArrow] .javascript assignedArrow.text = .ok (some parse) ∧
      parse.root.wellPlaced assignedArrow.text = true ∧
      (∀ s ∈ (arrowEditor [.cursor 0]).selections, s.LiesIn assignedArrow.text) ∧
      Insertion.plan (.ofParse assignedArrow.text parse) (arrowEditor [.cursor 0]).selections =
        .ok plan ∧
      plan.mapM (padded? {} assignedArrow.text) = some padded ∧
      applyAll assignedArrow.text (padded.map footprint) =
        .ok "x = () => \x7b\nconsole.log()\n\x7d;\nconsole.log('*** x »', x)\n".toList ∧
      ((arrowEditor [.cursor 0]).insertLogs (Parser.ofTables [assignedArrow])).1.text =
        "x = () => \x7b\ncon\nconsole.log('*** x »', x)sole.log()\n\x7d;\n".toList := by
  obtain ⟨parse, hparse, hplaced, -, hplan⟩ := assignedArrow_plans
  have hpadded : [bodySnippet, nameLog].mapM (padded? {} assignedArrow.text) =
      some [bodySnippet, nameLog] := rfl
  refine ⟨parse, _, _, hparse, hplaced, by decide, hplan, hpadded, ?_, ?_⟩
  · have hsorted : bottomUp ([bodySnippet, nameLog].map footprint) =
        [nameLog.footprint, bodySnippet.footprint] := by
      have hbefore : bodySnippet.footprint.appliesBefore nameLog.footprint = false := by decide
      simp [bottomUp, List.mergeSort, hbefore]
    rw [applyAll_eq, hsorted]
    rfl
  · have htree : (Parser.ofTables [assignedArrow]).document? "javascript" assignedArrow.text =
        .ok (some (.ofParse assignedArrow.text parse)) :=
      Parser.document?_eq (Dialect.ofLanguageId?_languageId .js) hparse
    have hrounds : applyRounds assignedArrow.text (rounds [] [bodySnippet, nameLog]) =
        .ok "x = () => \x7b\ncon\nconsole.log('*** x »', x)sole.log()\n\x7d;\n".toList := by
      change ((applyAll _ []).bind fun t => (applyAll t [bodySnippet.footprint]).bind fun t =>
        (applyAll t [nameLog.footprint]).bind .ok) = _
      simp only [applyAll_nil, applyAll_singleton]
      rfl
    have hrun := settles_schedule (r := (arrowEditor [.cursor 0]).reading) hpadded []
      (arrowEditor [.cursor 0])
    rw [show (arrowEditor [.cursor 0]).text = assignedArrow.text from rfl, hrounds] at hrun
    exact (insertLogs_spec (e := arrowEditor [.cursor 0]) htree hplan).1.trans hrun.1

end Editor
end LogProbe
