import LogProbe.Proofs.Edit.Segments
import LogProbe.Proofs.Editor.Run
import LogProbe.Proofs.Editor.Selections
import LogProbe.Proofs.Syntax.Leaves

/-! The order in which logs come out. A plan is made from the bottom of the text up and insertions
at one offset are read with the last of their batch first, so logs that go to one offset stand there
in the order of their selections. -/
namespace LogProbe
open Edit Insertion

namespace Insertion

/-- Selections in document order, each with the padded log that is planned for it. -/
structure Serves (tree : Tree) (e : Editor) (plan : List Insertion)
    (served : List (Selection × Edit)) : Prop where
  ascending : served.Pairwise fun p q => p.1.start < q.1.start
  asks : ∀ p ∈ served, p.1 ∈ e.selections
  /-- The plan is for these selections, the last one first. -/
  planned : List.Forall₂ (fun p x => propose? tree p.1 = .ok (some x) ∧
    x.padded? e.indent e.text = some (.edit p.2)) served plan.reverse

/-- Without snippets there is one round. -/
theorem rounds_of_edits {plan : List Insertion} (h : ∀ x ∈ plan, x.isSnippet = false)
    (pending : List Edit) : rounds pending plan = [pending ++ plan.map footprint] := by
  induction plan generalizing pending with
  | nil => simp [rounds]
  | cons x rest ih =>
    rw [List.forall_mem_cons] at h
    cases x with
    | edit e => simp [rounds, ih h.2, footprint]
    | snippet site s => cases h.1

theorem exists_edits_of_mapM {i : Indent} {source : Text} {tree : Tree}
    {chosen : List Selection} {plan padded : List Insertion}
    (h : List.Forall₂ (fun s x => propose? tree s = .ok (some x)) chosen plan)
    (hpadded : plan.mapM (padded? i source) = some padded)
    (hedits : ∀ x ∈ plan, x.isSnippet = false) :
    ∃ served : List (Selection × Edit), served.map (·.1) = chosen ∧
      served.map (·.2) = padded.map footprint ∧
      List.Forall₂ (fun p x => propose? tree p.1 = .ok (some x) ∧
        x.padded? i source = some (.edit p.2)) served plan := by
  induction h generalizing padded with
  | nil =>
    cases hpadded
    exact ⟨[], rfl, rfl, .nil⟩
  | @cons s x chosen plan hx _ ih =>
    rw [List.forall_mem_cons] at hedits
    obtain ⟨y, ys, hy, hys, rfl⟩ := mapM_padded?_cons.mp hpadded
    obtain ⟨served, rfl, htexts, hall⟩ := ih hys hedits.2
    cases x with
    | snippet site s => cases hedits.1
    | edit change =>
      obtain ⟨change', hchange, rfl⟩ := Option.map_eq_some_iff.mp hy
      refine ⟨(s, change') :: served, rfl, by rw [List.map_cons, htexts]; rfl, .cons ⟨hx, ?_⟩ hall⟩
      rw [padded?, hchange]
      rfl

/-- The selections with different starts from the bottom up. -/
theorem pairwise_bottomFirst_of_nodup {selections : List Selection}
    (h : (selections.map (·.start)).Nodup) :
    (Selection.bottomFirst selections).Pairwise fun s s' => s'.start < s.start := by
  have hnodup : ((Selection.bottomFirst selections).map (·.start)).Nodup :=
    ((Selection.bottomFirst_perm selections).map _).nodup_iff.mpr h
  refine ((Selection.pairwise_bottomFirst selections).and (List.pairwise_map.mp hnodup)).imp ?_
  rintro s s' ⟨hle, hne⟩
  exact Nat.lt_of_le_of_ne hle (Ne.symm hne)

/-- The selections that a plan without snippets serves, and the batch of their logs. -/
theorem exists_serves {tree : Tree} {e : Editor} {plan padded : List Insertion}
    (hplan : Insertion.plan tree e.selections = .ok plan)
    (hpadded : plan.mapM (padded? e.indent e.text) = some padded)
    (hedits : ∀ x ∈ plan, x.isSnippet = false)
    (hstarts : (e.selections.map (·.start)).Nodup) :
    ∃ served, Serves tree e plan served ∧
      (served.map (·.2)).reverse = padded.map footprint := by
  obtain ⟨chosen, added, hadded, hsub, hchosen⟩ := (fills_of_foldlM hplan).chosen
  obtain rfl : plan = added := hadded
  obtain ⟨served, hserved, htexts, hall⟩ := exists_edits_of_mapM hchosen hpadded hedits
  refine ⟨served.reverse, ⟨?_, fun p hp => ?_, List.forall₂_reverse_iff.mpr hall⟩, ?_⟩
  · have hdescending := (pairwise_bottomFirst_of_nodup hstarts).sublist hsub
    rw [← hserved, List.pairwise_map] at hdescending
    exact List.pairwise_reverse.mpr hdescending
  · have hp : p.1 ∈ chosen := hserved ▸ List.mem_map_of_mem (List.mem_reverse.mp hp)
    exact mem_bottomFirst.mp (hsub.subset hp)
  · rw [List.map_reverse, List.reverse_reverse, htexts]

end Insertion

namespace Editor

/-- Without snippets the insertion of logs succeeds where the batch of the padded edits is accepted,
and leaves the text of that batch. -/
theorem insertLogs_of_edits {parser : Parser} {e : Editor} {tree : Tree}
    {plan padded : List Insertion}
    (htree : parser.document? e.languageId e.text = .ok (some tree))
    (hplan : Insertion.plan tree e.selections = .ok plan)
    (hpadded : plan.mapM (padded? e.indent e.text) = some padded)
    (hedits : ∀ x ∈ plan, x.isSnippet = false) :
    ((∃ report, (e.insertLogs parser).2 = .ok report) ↔
      ∃ t, applyAll e.text (padded.map footprint) = .ok t) ∧
    ∀ t, applyAll e.text (padded.map footprint) = .ok t → (e.insertLogs parser).1.text = t := by
  obtain ⟨htext, hreport⟩ := insertLogs_spec htree hplan
  have hkinds : ∀ x ∈ padded, x.isSnippet = false := fun x hx => by
    have hmem : x.shape ∈ plan.map shape := map_shape_of_mapM hpadded ▸ List.mem_map_of_mem hx
    obtain ⟨y, hy, hyx⟩ := List.mem_map.mp hmem
    exact (congrArg Prod.fst hyx).symm.trans (hedits y hy)
  have hrun := settles_schedule (r := e.reading) hpadded [] e
  rw [rounds_of_edits hkinds, List.nil_append, applyRounds_cons] at hrun
  rw [hreport, htext]
  cases hbatch : applyAll e.text (padded.map footprint) with
  | ok t =>
    rw [hbatch] at hrun
    exact ⟨iff_of_true hrun.2 ⟨t, rfl⟩, fun t' ht' => Except.ok.inj ht' ▸ hrun.1⟩
  | error failure =>
    rw [hbatch] at hrun
    have hfails : (Command.performAll perform (e.reading.schedule [] plan) e).2 =
        some failure := hrun
    simp [hfails]

/-- The logs of two selections in a block stand in it as the selections do. -/
theorem exists_parts_of_hasBlock {source result : Text} {order : List Edit} {n : Nat}
    {served : List (Selection × Edit)}
    (h : HasBlock source order result n ((served.filter fun p => insertsAt n p.2).map (·.2)))
    (hascending : served.Pairwise fun p q => p.1.start < q.1.start) {p q : Selection × Edit}
    (hp : p ∈ served) (hq : q ∈ served) (hpn : insertsAt n p.2 = true)
    (hqn : insertsAt n q.2 = true) (hlt : p.1.start < q.1.start) :
    ∃ front between back, result = front ++ p.2.text ++ between ++ q.2.text ++ back := by
  obtain ⟨front, rest, rfl⟩ := List.append_of_mem hp
  have hafter : q ∈ rest := by
    have hbefore := (List.pairwise_append.mp hascending).2.2
    rcases List.mem_append.mp hq with hq | hq
    · have := hbefore q hq p (by simp)
      omega
    · rcases List.mem_cons.mp hq with rfl | hq
      · omega
      · exact hq
  obtain ⟨between, back, rfl⟩ := List.append_of_mem hafter
  obtain ⟨-, -, above, below, -, -, -, -, -, rfl⟩ := h
  let logs (l : List (Selection × Edit)) : Text :=
    (l.filter fun p => insertsAt n p.2).flatMap (·.2.text)
  refine ⟨above ++ logs front, logs between, logs back ++ below, ?_⟩
  simp [logs, hpn, hqn, List.flatMap_map]

/-- Logs come out in the order of their selections. Where no snippet is planned, a plan that can be
padded is carried out; the edits are those that the plan makes for its selections, and those that
are insertions at one offset stand there in one block, in document order of the selections. -/
theorem insertLogs_document_order (parser : Parser) (e : Editor) (dialect : Dialect)
    (parse : Parse) (plan : List Insertion)
    (hdialect : Dialect.ofLanguageId? e.languageId = some dialect)
    (hparse : parser dialect.grammar e.text = .ok (some parse))
    (hplan : Insertion.plan (.ofParse e.text parse) e.selections = .ok plan)
    (hedits : ∀ x ∈ plan, x.isSnippet = false)
    (hstarts : (e.selections.map (·.start)).Nodup) :
    (parse.root.nested e.text = true → (∀ s ∈ e.selections, s.LiesIn e.text) →
      ((∃ report, (e.insertLogs parser).2 = .ok report) ↔
        ∃ padded, plan.mapM (padded? e.indent e.text) = some padded)) ∧
    ((∃ report, (e.insertLogs parser).2 = .ok report) →
      ∃ served order, Serves (.ofParse e.text parse) e plan served ∧
        ReadingOrder (served.map (·.2)).reverse order ∧
        (∀ n, (∃ p ∈ served, insertsAt n p.2 = true) →
          HasBlock e.text order (e.insertLogs parser).1.text n
            ((served.filter fun p => insertsAt n p.2).map (·.2))) ∧
        ∀ n, ∀ p ∈ served, ∀ q ∈ served, insertsAt n p.2 = true → insertsAt n q.2 = true →
          p.1.start < q.1.start → ∃ front between back,
            (e.insertLogs parser).1.text =
              front ++ p.2.text ++ between ++ q.2.text ++ back) := by
  have htree := Parser.document?_eq hdialect hparse
  have hpaddable : (∃ report, (e.insertLogs parser).2 = .ok report) →
      ∃ padded, plan.mapM (padded? e.indent e.text) = some padded := by
    intro hreport
    cases hpadded : plan.mapM (padded? e.indent e.text) with
    | some padded => exact ⟨padded, rfl⟩
    | none =>
      have hfails := performAll_schedule_ne_none (r := e.reading) hpadded [] e
      exact absurd ((insertLogs_spec htree hplan).2.mp hreport) hfails
  constructor
  · rintro hnested hin
    refine ⟨hpaddable, ?_⟩
    rintro ⟨padded, hpadded⟩
    have hsound : Sound e.text plan := sound_of_plan (Tree.labelsSound_ofParse hnested) hin hplan
    exact (insertLogs_of_edits htree hplan hpadded hedits).1.mpr
      (exists_applyAll_of_sound (hsound.of_shape (map_shape_of_mapM hpadded) fun _ => id))
  · intro hreport
    obtain ⟨padded, hpadded⟩ := hpaddable hreport
    obtain ⟨hok, htext⟩ := insertLogs_of_edits htree hplan hpadded hedits
    obtain ⟨t, hbatch⟩ := hok.mp hreport
    rw [htext t hbatch]
    obtain ⟨served, hserves, htexts⟩ := exists_serves hplan hpadded hedits hstarts
    rw [← htexts] at hbatch
    have horder := readingOrder_reverse_bottomUp (served.map (·.2)).reverse
    have hblock : ∀ n, (∃ p ∈ served, insertsAt n p.2 = true) →
        HasBlock e.text (bottomUp (served.map (·.2)).reverse).reverse t n
          ((served.filter fun p => insertsAt n p.2).map (·.2)) := by
      rintro n ⟨p, hp, hpn⟩
      have h := hasBlock_of_applyAll hbatch horder ⟨p.2, by simpa using ⟨p.1, hp⟩, hpn⟩
      rwa [List.filter_reverse, List.reverse_reverse, List.filter_map] at h
    refine ⟨served, _, hserves, horder, hblock, fun n p hp q hq hpn hqn hlt => ?_⟩
    exact exists_parts_of_hasBlock (hblock n ⟨p, hp, hpn⟩) hserves.ascending hp hq hpn hqn hlt

/-- A sum of two names. -/
def sumOfNames : ParseTable where
  grammar := .javascript
  text := "a + b;\n".toList
  hasErrors := false
  rows := [
    ⟨none, "program", true, none, 0, 7, none⟩,
    ⟨some 0, "expression_statement", true, none, 0, 6, none⟩,
    ⟨some 1, "binary_expression", true, none, 0, 5, none⟩,
    ⟨some 2, "identifier", true, some "left", 0, 1, none⟩,
    ⟨some 2, "+", false, some "operator", 2, 3, none⟩,
    ⟨some 2, "identifier", true, some "right", 4, 5, none⟩,
    ⟨some 1, ";", false, none, 5, 6, none⟩]

/-- A cursor at each of the names. -/
def sumEditor : Editor where
  languageId := "javascript"
  text := sumOfNames.text
  selections := [.cursor 4, .cursor 0]

def firstLog : Edit := .insertion 6 "\nconsole.log('*** a »', a)".toList

def secondLog : Edit := .insertion 6 "\nconsole.log('*** b »', b)".toList

/-- Both logs go behind the statement, the one for the first name first. -/
theorem sumEditor_document_order :
    ∃ parse order, Parser.ofTables [sumOfNames] .javascript sumOfNames.text = .ok (some parse) ∧
      Serves (.ofParse sumOfNames.text parse) sumEditor [.edit secondLog, .edit firstLog]
        [(.cursor 0, firstLog), (.cursor 4, secondLog)] ∧
      HasBlock sumOfNames.text order (sumEditor.insertLogs (Parser.ofTables [sumOfNames])).1.text 6
        [firstLog, secondLog] := by
  obtain ⟨parse, hparse, hnested, hplan⟩ : ∃ parse,
      Parser.ofTables [sumOfNames] .javascript sumOfNames.text = .ok (some parse) ∧
      parse.root.nested sumOfNames.text = true ∧
      Insertion.plan (.ofParse sumOfNames.text parse) sumEditor.selections =
        .ok [.edit secondLog, .edit firstLog] := by
    refine ⟨_, rfl, by decide +kernel, ?_⟩
    rw [plan_of_pairwise (by decide)]
    rfl
  have hfirst : (Insertion.edit firstLog).padded? {} sumOfNames.text = some (.edit firstLog) := rfl
  have hsecond : (Insertion.edit secondLog).padded? {} sumOfNames.text = some (.edit secondLog) :=
    rfl
  have hpadded : [Insertion.edit secondLog, .edit firstLog].mapM (padded? {} sumOfNames.text) =
      some [.edit secondLog, .edit firstLog] :=
    mapM_padded?_cons.mpr ⟨_, _, hsecond, mapM_padded?_cons.mpr ⟨_, _, hfirst, rfl, rfl⟩, rfl⟩
  obtain ⟨hsucceeds, hordered⟩ := insertLogs_document_order (Parser.ofTables [sumOfNames]) sumEditor
    .js parse _ (Dialect.ofLanguageId?_languageId .js) hparse hplan (by decide) (by decide)
  obtain ⟨served, order, hserves, -, hblock, -⟩ :=
    hordered ((hsucceeds hnested (by decide)).mpr ⟨_, hpadded⟩)
  obtain rfl : served = [(.cursor 0, firstLog), (.cursor 4, secondLog)] := by
    obtain ⟨hascending, hasks, hplanned⟩ := hserves
    obtain ⟨⟨s, f⟩, rest, ⟨-, hf⟩, hrest, rfl⟩ := List.forall₂_cons_right_iff.mp hplanned
    obtain ⟨⟨s', f'⟩, others, ⟨-, hf'⟩, hothers, rfl⟩ := List.forall₂_cons_right_iff.mp hrest
    cases List.forall₂_nil_right_iff.mp hothers
    obtain rfl : firstLog = f := Insertion.edit.inj (Option.some.inj (hfirst.symm.trans hf))
    obtain rfl : secondLog = f' := Insertion.edit.inj (Option.some.inj (hsecond.symm.trans hf'))
    have hlt : s.start < s'.start :=
      List.rel_of_pairwise_cons hascending (List.mem_singleton_self (s', secondLog))
    have hmem : ∀ s ∈ sumEditor.selections, s = .cursor 4 ∨ s = .cursor 0 := by simp [sumEditor]
    have hs := hmem s (hasks (s, firstLog) (by simp))
    have hs' := hmem s' (hasks (s', secondLog) (by simp))
    obtain ⟨rfl, rfl⟩ : s = .cursor 0 ∧ s' = .cursor 4 := by
      revert hlt
      rcases hs with rfl | rfl <;> rcases hs' with rfl | rfl <;> decide
    rfl
  exact ⟨parse, order, hparse, hserves, hblock 6 ⟨(.cursor 0, firstLog), by simp, rfl⟩⟩

end Editor
end LogProbe
