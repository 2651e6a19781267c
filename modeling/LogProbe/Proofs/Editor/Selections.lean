import LogProbe.Proofs.Editor.Run
import Mathlib.Data.List.Nodup

/-! How selections are given. Neither their order nor the end at which the cursor of each stands
decides anything: logs go by the ranges of the selections, and these are put in order first. -/
namespace LogProbe
open Insertion

namespace Selection

/-- The same range with the cursor at its other end. -/
def flip (s : Selection) : Selection := ⟨s.active, s.anchor⟩

/-- The same range with the cursor at its end. -/
def forward (s : Selection) : Selection := ⟨s.start, s.stop⟩

/-- The same selections in some order, some of them flipped. -/
def Rearranges (given selections : List Selection) : Prop :=
  ∃ moved, moved.Perm selections ∧ List.Forall₂ (fun s s' => s' = s ∨ s' = s.flip) moved given

@[simp] theorem start_forward (s : Selection) : s.forward.start = s.start :=
  Nat.min_eq_left s.start_le_stop

@[simp] theorem stop_forward (s : Selection) : s.forward.stop = s.stop :=
  Nat.max_eq_right s.start_le_stop

theorem forward_flip (s : Selection) : s.flip.forward = s.forward := by
  simp only [forward, start, stop, flip, Nat.min_comm, Nat.max_comm]

theorem Rearranges.forward_perm {given selections : List Selection}
    (h : Rearranges given selections) : (given.map forward).Perm (selections.map forward) := by
  obtain ⟨moved, hperm, hall⟩ := h
  have hsame : given.map forward = moved.map forward := by
    clear hperm
    induction hall with
    | nil => rfl
    | cons hs _ ih =>
      rw [List.map_cons, List.map_cons, ih]
      rcases hs with rfl | rfl
      · rfl
      · rw [forward_flip]
  rw [hsame]
  exact hperm.map forward

theorem bottomFirst_map_forward (selections : List Selection) :
    bottomFirst (selections.map forward) = (bottomFirst selections).map forward := by
  rw [bottomFirst, bottomFirst, List.map_mergeSort]
  simp

theorem pairwise_bottomFirst (selections : List Selection) :
    (bottomFirst selections).Pairwise fun a b => b.start ≤ a.start := by
  have h : (bottomFirst selections).Pairwise fun a b => decide (b.start ≤ a.start) = true :=
    List.pairwise_mergeSort
      (fun a b c hab hbc => by simp only [decide_eq_true_eq] at *; omega)
      (fun a b => by simp only [Bool.or_eq_true, decide_eq_true_eq]; omega) selections
  simpa using h

/-- Selections with different starts come out of the sort in one order only. -/
theorem bottomFirst_eq_of_perm {given selections : List Selection} (h : given.Perm selections)
    (hstarts : (selections.map start).Nodup) : bottomFirst given = bottomFirst selections := by
  have hperm : (bottomFirst given).Perm (bottomFirst selections) :=
    (bottomFirst_perm given).trans (h.trans (bottomFirst_perm selections).symm)
  refine hperm.eq_of_pairwise (fun a b ha hb hab hba => ?_)
    (pairwise_bottomFirst given) (pairwise_bottomFirst selections)
  have ha := h.mem_iff.mp ((bottomFirst_perm given).mem_iff.mp ha)
  have hb := (bottomFirst_perm selections).mem_iff.mp hb
  exact List.inj_on_of_nodup_map hstarts ha hb (Nat.le_antisymm hba hab)

end Selection

namespace Insertion

/-- The same insertion for a selection with the cursor at its end. -/
def forward : Insertion → Insertion
  | edit e => edit e
  | snippet site s => snippet site.forward s

@[simp] theorem footprint_forward (x : Insertion) : x.forward.footprint = x.footprint := by
  cases x <;> simp [forward, footprint]

@[simp] theorem isSnippet_forward (x : Insertion) : x.forward.isSnippet = x.isSnippet := by
  cases x <;> rfl

/-- What is proposed depends on the range of a selection; where its cursor stands shows only in the
site of a snippet. -/
theorem propose?_forward (tree : Tree) (s : Selection) :
    propose? tree s.forward = (propose? tree s).map (Option.map forward) := by
  unfold propose?
  simp only [Selection.start_forward, Selection.stop_forward]
  generalize (tree.locate? s.start s.stop).getD tree.rootPlace = place
  split
  · rfl
  · cases place.expand with
    | error failure => rfl
    | ok target =>
      cases target with
      | none => rfl
      | some target =>
        simp only [bind, Except.bind]
        cases Placement.ofTarget? target with
        | none => rfl
        | some r =>
          cases orBadCut (Echo.ofTarget? tree.source target) with
          | error failure => rfl
          | ok echo =>
            dsimp only
            cases orBadCut (r.render? tree.source echo.statement) <;> rfl

theorem add_forward (plan : List Insertion) (x : Insertion) :
    add (plan.map forward) x.forward = (add plan x).map forward := by
  simp only [add, List.any_map, Function.comp_def, footprint_forward]
  split <;> simp

theorem addProposal_forward (tree : Tree) (plan : List Insertion) (s : Selection) :
    addProposal tree (plan.map forward) s.forward =
      (addProposal tree plan s).map (List.map forward) := by
  rw [addProposal, addProposal, propose?_forward]
  cases propose? tree s with
  | error failure => rfl
  | ok proposal =>
    cases proposal with
    | none => rfl
    | some x => exact congrArg Except.ok (add_forward plan x)

theorem foldlM_forward (tree : Tree) (selections : List Selection) (done : List Insertion) :
    (selections.map Selection.forward).foldlM (addProposal tree) (done.map forward) =
      (selections.foldlM (addProposal tree) done).map (List.map forward) := by
  induction selections generalizing done with
  | nil => rfl
  | cons s selections ih =>
    rw [List.map_cons, List.foldlM_cons, List.foldlM_cons, addProposal_forward]
    cases addProposal tree done s with
    | error failure => rfl
    | ok plan => exact ih plan

theorem plan_forward (tree : Tree) (selections : List Selection) :
    plan tree (selections.map Selection.forward) =
      (plan tree selections).map (List.map forward) := by
  rw [plan, plan, Selection.bottomFirst_map_forward]
  exact foldlM_forward tree _ []

/-- Rearranged selections are planned for alike. -/
theorem plan_rearranged {given selections : List Selection}
    (h : Selection.Rearranges given selections) (hstarts : (selections.map (·.start)).Nodup)
    (tree : Tree) :
    (plan tree given).map (List.map forward) = (plan tree selections).map (List.map forward) := by
  have hnodup : ((selections.map Selection.forward).map (·.start)).Nodup := by
    simpa [Function.comp_def] using hstarts
  rw [← plan_forward, ← plan_forward, plan, plan,
    Selection.bottomFirst_eq_of_perm h.forward_perm hnodup]

end Insertion

/-- The same request with the cursor at the end of the selection that a snippet replaces. -/
def Request.forward : Request → Request
  | .snippet s site => .snippet s site.forward
  | request => request

namespace Reading

theorem map_forward_flush (edits : List Edit) :
    (flush edits).map Request.forward = flush edits := by
  cases edits <;> rfl

theorem schedule_forward (r : Reading) (pending : List Edit) (plan : List Insertion) :
    r.schedule pending (plan.map Insertion.forward) =
      (r.schedule pending plan).map Request.forward := by
  induction plan generalizing pending with
  | nil => exact (map_forward_flush pending).symm
  | cons x rest ih =>
    cases x with
    | edit change =>
      rw [List.map_cons, Insertion.forward, schedule, schedule]
      cases r.indent.reindentEdit? r.text change with
      | none => rfl
      | some change' => exact ih _
    | snippet site s =>
      rw [List.map_cons, Insertion.forward, schedule, schedule, Selection.start_forward,
        partition_pending]
      dsimp only
      rw [List.map_append, map_forward_flush, List.map_cons, ih]
      rfl

/-- The selections of a reading play no part once there is a plan. -/
theorem schedule_select (r : Reading) (given : List Selection) (pending : List Edit)
    (plan : List Insertion) :
    { r with selections := given }.schedule pending plan = r.schedule pending plan := by
  induction plan generalizing pending with
  | nil => rfl
  | cons x rest ih =>
    cases x with
    | edit change =>
      rw [schedule, schedule]
      cases r.indent.reindentEdit? r.text change with
      | none => rfl
      | some change' => exact ih _
    | snippet site s =>
      rw [schedule, schedule, partition_pending]
      exact congrArg (flush (ready site pending) ++ .snippet s site :: ·) (ih _)

end Reading

namespace Editor

/-- The same editor with other selections. -/
def select (given : List Selection) (e : Editor) : Editor := { e with selections := given }

theorem perform_forward (request : Request) (e : Editor) :
    perform request.forward e = perform request e := by
  cases request with
  | snippet s site =>
    simp only [Request.forward, perform, Command.attempt, insertSnippet, Selection.start_forward,
      Selection.stop_forward]
  | batch | format | refuse => rfl

theorem performAll_forward (requests : List Request) (e : Editor) :
    Command.performAll perform (requests.map Request.forward) e =
      Command.performAll perform requests e := by
  induction requests generalizing e with
  | nil => rfl
  | cons request rest ih =>
    simp only [List.map_cons, Command.performAll, perform_forward, ih]

theorem perform_select (request : Request) (given : List Selection) (e : Editor) :
    perform request (e.select given) = (perform request e).map (select given) id := by
  cases request with
  | batch edits =>
    simp only [perform, Command.attempt, applyBatch, select]
    cases Edit.applyAll e.text edits <;> rfl
  | snippet s site =>
    simp only [perform, Command.attempt, insertSnippet, select]
    cases Edit.applyAll e.text [⟨site.start, site.stop, s.plainText⟩] <;> rfl
  | format | refuse => rfl

/-- No request looks at the selections of the editor. -/
theorem performAll_select (requests : List Request) (given : List Selection) (e : Editor) :
    Command.performAll perform requests (e.select given) =
      (Command.performAll perform requests e).map (select given) id := by
  induction requests generalizing e with
  | nil => rfl
  | cons request rest ih =>
    rw [Command.performAll, Command.performAll, perform_select]
    cases perform request e with
    | mk e' failure =>
      cases failure with
      | none => exact ih e'
      | some failure => rfl

theorem run_select {α : Type} (command : Except Failure (Command α)) (given : List Selection)
    (e : Editor) :
    Command.run perform command (e.select given) =
      (Command.run perform command e).map (select given) id := by
  cases command with
  | error failure => rfl
  | ok command =>
    simp only [Command.run, performAll_select]
    cases Command.performAll perform command.requests e with
    | mk e' failure => cases failure <;> rfl

/-- The insertion of logs with the plan as it is for selections with the cursor at their end. -/
theorem insertLogs_of_forward {parser : Parser} {e : Editor} {tree : Tree}
    (htree : parser.document? e.languageId e.text = .ok (some tree)) :
    e.insertLogs parser = Command.run perform
      (((Insertion.plan tree e.selections).map (List.map forward)).map fun plan =>
        ⟨e.reading.schedule [] plan ++ if plan.isEmpty then [] else [.format],
          { edits := plan.length - plan.countP (·.isSnippet), snippets := plan.countP (·.isSnippet),
            skipped := e.selections.length - plan.length }⟩) e := by
  rw [insertLogs_of_tree htree]
  cases Insertion.plan tree e.selections with
  | error failure => rfl
  | ok plan =>
    have hrequests : (e.reading.schedule [] (plan.map forward) ++
        if plan.isEmpty then [] else [.format]) =
          (e.reading.schedule [] plan ++ if plan.isEmpty then [] else [Request.format]).map
            Request.forward := by
      rw [Reading.schedule_forward, List.map_append]
      cases plan <;> rfl
    simp only [Except.map, Command.run, List.isEmpty_map, List.length_map, List.countP_map,
      Function.comp_def, isSnippet_forward, hrequests, performAll_forward]

/-- The insertion of logs takes selections with different starts in whatever order and direction
they are given: the outcome is the same, and the editor is left the same but for the selections
themselves. -/
theorem insertLogs_rearranged (parser : Parser) (e : Editor) (given : List Selection)
    (hgiven : Selection.Rearranges given e.selections)
    (hstarts : (e.selections.map (·.start)).Nodup) :
    (e.select given).insertLogs parser =
      ((e.insertLogs parser).1.select given, (e.insertLogs parser).2) := by
  rcases htree : parser.document? e.languageId e.text with refused | _ | tree
  · simp only [insertLogs, Reading.insertLogs, reading, select, htree]
    rfl
  · simp only [insertLogs, Reading.insertLogs, reading, select, htree]
    rfl
  · have hlength : given.length = e.selections.length := by
      simpa using hgiven.forward_perm.length_eq
    have hreading : ∀ plan, (e.select given).reading.schedule [] plan =
        e.reading.schedule [] plan := Reading.schedule_select e.reading given []
    rw [insertLogs_of_forward (e := e.select given) htree, insertLogs_of_forward htree,
      run_select]
    simp only [hreading]
    rw [show (e.select given).selections = given from rfl, plan_rearranged hgiven hstarts, hlength]
    rfl

/-- A statement and an empty block. -/
def nameAndBlock : ParseTable where
  grammar := .javascript
  text := "a;\n\x7b\n\n\x7d\n".toList
  hasErrors := false
  rows := [
    ⟨none, "program", true, none, 0, 8, none⟩,
    ⟨some 0, "expression_statement", true, none, 0, 2, none⟩,
    ⟨some 1, "identifier", true, none, 0, 1, none⟩,
    ⟨some 1, ";", false, none, 1, 2, none⟩,
    ⟨some 0, "statement_block", true, none, 3, 7, none⟩,
    ⟨some 4, "\x7b", false, none, 3, 4, none⟩,
    ⟨some 4, "\x7d", false, none, 6, 7, none⟩]

/-- The empty line of the block selected backwards, and the name before it forwards. -/
def rangesEditor : Editor where
  languageId := "javascript"
  text := nameAndBlock.text
  selections := [⟨5, 4⟩, ⟨0, 1⟩]

/-- The log for the name. -/
def afterName : Edit := .insertion 2 "\nconsole.log('*** a »', a)".toList

theorem rangesEditor_insertLogs :
    ∃ e', rangesEditor.insertLogs (Parser.ofTables [nameAndBlock]) = (e', .ok ⟨1, 1, 0⟩) ∧
      e'.text = "a;\nconsole.log('*** a »', a)\n\x7bconsole.log()\n\x7d\n".toList := by
  obtain ⟨parse, hparse, hplan⟩ : ∃ parse,
      Parser.ofTables [nameAndBlock] .javascript nameAndBlock.text = .ok (some parse) ∧
      Insertion.plan (.ofParse nameAndBlock.text parse) rangesEditor.selections =
        .ok [.snippet ⟨5, 4⟩ logSnippet, .edit afterName] := by
    refine ⟨_, rfl, ?_⟩
    rw [plan_of_pairwise (by decide)]
    rfl
  have htree : (Parser.ofTables [nameAndBlock]).document? "javascript" nameAndBlock.text =
      .ok (some (.ofParse nameAndBlock.text parse)) :=
    Parser.document?_eq (Dialect.ofLanguageId?_languageId .js) hparse
  have hcommand : rangesEditor.reading.insertLogs (Parser.ofTables [nameAndBlock]) =
      .ok ⟨[.snippet logSnippet ⟨5, 4⟩, .batch [afterName], .format], ⟨1, 1, 0⟩⟩ := by
    rw [Reading.insertLogs_of_tree (r := rangesEditor.reading) htree]
    exact congrArg (Except.map _) hplan
  rw [insertLogs, hcommand]
  simp only [Command.run, Command.performAll, perform, Command.attempt, insertSnippet, applyBatch,
    Edit.applyAll_singleton]
  refine ⟨_, rfl, ?_⟩
  decide +kernel

/-- The other way around: first the name, backwards, then the empty line. -/
theorem rangesEditor_rearranged :
    ∃ e', rangesEditor.insertLogs (Parser.ofTables [nameAndBlock]) = (e', .ok ⟨1, 1, 0⟩) ∧
      e'.text = "a;\nconsole.log('*** a »', a)\n\x7bconsole.log()\n\x7d\n".toList ∧
      (rangesEditor.select [⟨1, 0⟩, ⟨4, 5⟩]).insertLogs (Parser.ofTables [nameAndBlock]) =
        (e'.select [⟨1, 0⟩, ⟨4, 5⟩], .ok ⟨1, 1, 0⟩) := by
  obtain ⟨e', hrun, htext⟩ := rangesEditor_insertLogs
  have hgiven : Selection.Rearranges [⟨1, 0⟩, ⟨4, 5⟩] rangesEditor.selections :=
    ⟨[⟨0, 1⟩, ⟨5, 4⟩], .swap _ _ _, .cons (.inr rfl) (.cons (.inr rfl) .nil)⟩
  have hsame := insertLogs_rearranged (Parser.ofTables [nameAndBlock]) rangesEditor _ hgiven
    (by decide)
  rw [hrun] at hsame
  exact ⟨e', hrun, htext, hsame⟩

end Editor
end LogProbe
