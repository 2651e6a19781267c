import LogProbe.Proofs.Editor.OneBatch

/-! What the insertion of logs asks of its host. Pending edits are passed on in parts, yet all that
is planned reaches the host, once each. -/
namespace LogProbe
open Insertion

/-- An editor that shows its document and carries out requests, each in a way of its own. -/
structure Host (σ : Type) where
  reading : σ → Reading
  applyEdits : List Edit → σ → σ × Option Failure
  insertSnippet : Snippet → Selection → σ → σ × Option Failure
  format : σ → σ × Option Failure

namespace Host
variable {σ : Type}

/-- A request that cannot be written down does not reach the host. -/
def perform (host : Host σ) : Request → σ → σ × Option Failure
  | .batch edits => host.applyEdits edits
  | .snippet s site => host.insertSnippet s site
  | .format => host.format
  | .refuse failure => fun s => (s, some failure)

def insertLogs (host : Host σ) (parser : Parser) (s : σ) : σ × Except Failure InsertReport :=
  Command.run host.perform ((host.reading s).insertLogs parser) s

/-- A step that leaves a note of what was asked. -/
def noted (request : Request) (step : σ → σ × Option Failure) :
    σ × List Request → (σ × List Request) × Option Failure
  | (s, asked) =>
    let (s, failure) := step s
    ((s, asked ++ [request]), failure)

/-- The same host, noting what it is asked. -/
def recording (host : Host σ) : Host (σ × List Request) where
  reading s := host.reading s.1
  applyEdits edits := noted (.batch edits) (host.applyEdits edits)
  insertSnippet s site := noted (.snippet s site) (host.insertSnippet s site)
  format := noted .format host.format

theorem noted_of_done {request : Request} {step : σ → σ × Option Failure} {s s' : σ}
    (h : step s = (s', none)) (asked : List Request) :
    noted request step (s, asked) = ((s', asked ++ [request]), none) := by
  rw [noted, h]

theorem perform_recording {host : Host σ} {request : Request} {s s' : σ}
    (h : host.perform request s = (s', none)) (asked : List Request) :
    host.recording.perform request (s, asked) = ((s', asked ++ [request]), none) := by
  cases request with
  | batch edits => exact noted_of_done h asked
  | snippet s site => exact noted_of_done h asked
  | format => exact noted_of_done h asked
  | refuse failure => cases h

/-- Up to its notes, a host that takes notes does what it did. -/
theorem performAll_recording {host : Host σ} {requests : List Request} {s s' : σ}
    (h : Command.performAll host.perform requests s = (s', none)) (asked : List Request) :
    Command.performAll host.recording.perform requests (s, asked) =
      ((s', asked ++ requests), none) := by
  induction requests generalizing s asked with
  | nil =>
    cases h
    rw [Command.performAll, List.append_nil]
  | cons request rest ih =>
    rw [Command.performAll] at h
    cases hrequest : host.perform request s with
    | mk next failure =>
      rw [hrequest] at h
      cases failure with
      | some failure => cases h
      | none =>
        rw [Command.performAll, perform_recording hrequest]
        simpa using ih h (asked ++ [request])

end Host

/-- The edits of a request. -/
def Request.edits : Request → List Edit
  | .batch edits => edits
  | _ => []

def Request.snippet? : Request → Option (Selection × Snippet)
  | .snippet s site => some (site, s)
  | _ => none

namespace Insertion

def edit? : Insertion → Option Edit
  | edit e => some e
  | snippet _ _ => none

def snippet? : Insertion → Option (Selection × Snippet)
  | edit _ => none
  | snippet site s => some (site, s)

end Insertion

namespace Reading
variable {r : Reading} {plan padded : List Insertion}

theorem flatMap_edits_flush (edits : List Edit) : (flush edits).flatMap Request.edits = edits := by
  cases edits <;> simp [flush, Request.edits]

theorem filterMap_snippet?_flush (edits : List Edit) :
    (flush edits).filterMap Request.snippet? = [] := by
  cases edits <;> simp [flush, Request.snippet?]

theorem format_not_mem_flush (edits : List Edit) : .format ∉ flush edits := by
  cases edits <;> simp [flush]

/-- The batches hold what is pending and the edits of the plan: what goes ahead of a snippet and
what waits on is all that was pending. -/
theorem edits_schedule_perm (h : plan.mapM (padded? r.indent r.text) = some padded)
    (pending : List Edit) :
    ((r.schedule pending plan).flatMap Request.edits).Perm (pending ++ padded.filterMap edit?) := by
  induction plan generalizing padded pending with
  | nil =>
    cases h
    rw [schedule, flatMap_edits_flush]
    simp
  | cons x rest ih =>
    obtain ⟨y, ys, hy, hys, rfl⟩ := mapM_padded?_cons.mp h
    cases x with
    | edit change =>
      obtain ⟨change', hchange, rfl⟩ := Option.map_eq_some_iff.mp hy
      rw [schedule, hchange]
      simpa [edit?] using ih hys (pending ++ [change'])
    | snippet site s =>
      cases hy
      have hparts : (ready site pending ++ waiting site pending).Perm pending :=
        List.filter_append_perm _ pending
      have hrest := (ih hys (waiting site pending)).append_left (ready site pending)
      rw [← List.append_assoc] at hrest
      rw [schedule, partition_pending, List.flatMap_append, flatMap_edits_flush,
        List.flatMap_cons, List.filterMap_cons_none rfl]
      simpa [Request.edits] using hrest.trans (hparts.append_right _)

theorem snippets_schedule (h : plan.mapM (padded? r.indent r.text) = some padded)
    (pending : List Edit) :
    (r.schedule pending plan).filterMap Request.snippet? = plan.filterMap Insertion.snippet? := by
  induction plan generalizing padded pending with
  | nil =>
    rw [schedule, filterMap_snippet?_flush]
    rfl
  | cons x rest ih =>
    obtain ⟨y, ys, hy, hys, rfl⟩ := mapM_padded?_cons.mp h
    cases x with
    | edit change =>
      obtain ⟨change', hchange, rfl⟩ := Option.map_eq_some_iff.mp hy
      rw [schedule, hchange]
      exact ih hys _
    | snippet site s =>
      rw [schedule, partition_pending, List.filterMap_append, filterMap_snippet?_flush]
      simp [Request.snippet?, Insertion.snippet?, ih hys]

theorem format_not_mem_schedule (pending : List Edit) : .format ∉ r.schedule pending plan := by
  induction plan generalizing pending with
  | nil => exact format_not_mem_flush pending
  | cons x rest ih =>
    cases x with
    | edit change =>
      rw [schedule]
      cases r.indent.reindentEdit? r.text change with
      | none => simp
      | some change' => exact ih _
    | snippet site s =>
      rw [schedule, partition_pending]
      simp [format_not_mem_flush, ih]

/-- All requests for a plan, the call to format included. -/
def requestsFor (r : Reading) (plan : List Insertion) : List Request :=
  r.schedule [] plan ++ if plan.isEmpty then [] else [.format]

theorem edits_requestsFor_perm (h : plan.mapM (padded? r.indent r.text) = some padded) :
    ((r.requestsFor plan).flatMap Request.edits).Perm (padded.filterMap edit?) := by
  have hclosing : (if plan.isEmpty then [] else [Request.format]).flatMap Request.edits = [] := by
    cases plan <;> rfl
  rw [requestsFor, List.flatMap_append, hclosing, List.append_nil]
  exact edits_schedule_perm h []

theorem snippets_requestsFor (h : plan.mapM (padded? r.indent r.text) = some padded) :
    (r.requestsFor plan).filterMap Request.snippet? = plan.filterMap Insertion.snippet? := by
  have hclosing : (if plan.isEmpty then [] else [Request.format]).filterMap Request.snippet? =
      [] := by
    cases plan <;> rfl
  rw [requestsFor, List.filterMap_append, hclosing, List.append_nil]
  exact snippets_schedule h []

theorem count_format_requestsFor (r : Reading) (plan : List Insertion) :
    (r.requestsFor plan).count .format = if plan.length = 0 then 0 else 1 := by
  rw [requestsFor, List.count_append, List.count_eq_zero_of_not_mem (format_not_mem_schedule [])]
  cases plan <;> simp

end Reading

/-- A command reports only where all its requests are carried out. -/
theorem Command.run_eq_ok_iff {σ α : Type} {perform : Request → σ → σ × Option Failure}
    {command : Command α} {s s' : σ} {report : α} :
    Command.run perform (.ok command) s = (s', .ok report) ↔
      performAll perform command.requests s = (s', none) ∧ command.report = report := by
  rw [Command.run]
  cases performAll perform command.requests s with
  | mk next failure => cases failure <;> simp

/-- What is asked of a host, in all, is what is planned: each edit once, as it is padded for its
line, and the snippets in their order; then one time to format, if there was anything at all. The
report counts just these, and the selections that nothing was planned for. -/
structure Conserves (selections : List Selection) (plan padded : List Insertion)
    (asked : List Request) (report : InsertReport) : Prop where
  edits : (asked.flatMap Request.edits).Perm (padded.filterMap edit?)
  snippets : asked.filterMap Request.snippet? = plan.filterMap Insertion.snippet?
  countEdits : report.edits = (asked.flatMap Request.edits).length
  countSnippets : report.snippets = (asked.filterMap Request.snippet?).length
  /-- Nothing is planned twice, so that the selections left over can be counted. -/
  bounded : plan.length ≤ selections.length
  total : report.edits + report.snippets + report.skipped = selections.length
  formats : asked.count .format = if report.edits + report.snippets = 0 then 0 else 1

namespace Insertion

theorem length_filterMap_edit? (plan : List Insertion) :
    (plan.filterMap edit?).length + plan.countP (·.isSnippet) = plan.length := by
  induction plan with
  | nil => rfl
  | cons x rest ih =>
    cases x with
    | edit e =>
      rw [List.filterMap_cons_some (f := edit?) (b := e) rfl, List.countP_cons_of_neg (by simp [isSnippet]),
        List.length_cons, List.length_cons]
      omega
    | snippet site s =>
      rw [List.filterMap_cons_none rfl, List.countP_cons_of_pos rfl, List.length_cons]
      omega

theorem length_filterMap_snippet? (plan : List Insertion) :
    (plan.filterMap snippet?).length = plan.countP (·.isSnippet) := by
  rw [List.length_filterMap_eq_countP]
  congr 1
  funext x
  cases x <;> rfl

theorem countP_isSnippet_of_mapM {i : Indent} {source : Text} {plan padded : List Insertion}
    (h : plan.mapM (padded? i source) = some padded) :
    padded.length = plan.length ∧
      padded.countP (·.isSnippet) = plan.countP (·.isSnippet) := by
  have hshape : padded.map shape = plan.map shape := Editor.map_shape_of_mapM h
  have hcount : ∀ l : List Insertion, l.countP (·.isSnippet) = (l.map shape).countP (·.1) := by
    intro l
    rw [List.countP_map]
    rfl
  refine ⟨?_, by rw [hcount, hcount, hshape]⟩
  simpa using congrArg List.length hshape

end Insertion

theorem conserves_requestsFor {r : Reading} {tree : Tree} {plan padded : List Insertion}
    (hplan : Insertion.plan tree r.selections = .ok plan)
    (hpadded : plan.mapM (padded? r.indent r.text) = some padded) :
    Conserves r.selections plan padded (r.requestsFor plan)
      { edits := plan.length - plan.countP (·.isSnippet), snippets := plan.countP (·.isSnippet),
        skipped := r.selections.length - plan.length } := by
  have hedits := Reading.edits_requestsFor_perm hpadded
  have hsnippets := Reading.snippets_requestsFor hpadded
  obtain ⟨hlength, hcount⟩ := countP_isSnippet_of_mapM hpadded
  have hplanned := length_filterMap_edit? padded
  have hbound : plan.length ≤ r.selections.length := length_plan_le hplan
  have hsome : plan.countP (·.isSnippet) ≤ plan.length := List.countP_le_length
  refine ⟨hedits, hsnippets, ?_, ?_, hbound, ?_, ?_⟩
  · rw [hedits.length_eq]
    dsimp only
    omega
  · rw [hsnippets, length_filterMap_snippet?]
  · dsimp only
    omega
  · rw [Reading.count_format_requestsFor, Nat.sub_add_cancel hsome]

/-- Nothing that is planned is lost or done twice, whatever the host: where it reports success, the
requests that it was asked to carry out are those of the plan. -/
theorem Host.insertLogs_conserves {σ : Type} (host : Host σ) (parser : Parser) {s s' : σ}
    {tree : Tree}
    (htree : parser.document? (host.reading s).languageId (host.reading s).text = .ok (some tree))
    {report : InsertReport} (h : host.insertLogs parser s = (s', .ok report)) :
    ∃ plan padded asked, Insertion.plan tree (host.reading s).selections = .ok plan ∧
      plan.mapM (padded? (host.reading s).indent (host.reading s).text) = some padded ∧
      host.recording.insertLogs parser (s, []) = ((s', asked), .ok report) ∧
      Conserves (host.reading s).selections plan padded asked report := by
  change Command.run host.perform ((host.reading s).insertLogs parser) s = _ at h
  change ∃ plan padded asked, _ ∧ _ ∧ Command.run host.recording.perform
    ((host.reading s).insertLogs parser) (s, []) = ((s', asked), .ok report) ∧ _
  generalize host.reading s = r at htree h ⊢
  rw [Reading.insertLogs_of_tree htree] at h ⊢
  cases hplan : Insertion.plan tree r.selections with
  | error failure =>
    rw [hplan] at h
    cases h
  | ok plan =>
    rw [hplan] at h
    obtain ⟨hdone, rfl⟩ := Command.run_eq_ok_iff.mp h
    change Command.performAll host.perform (r.requestsFor plan) s = (s', none) at hdone
    cases hpadded : plan.mapM (padded? r.indent r.text) with
    | none =>
      have hrefused : .refuse .badCut ∈ r.requestsFor plan :=
        List.mem_append_left _ (Reading.refuse_mem_schedule hpadded [])
      have hfails : ∀ s, (host.perform (.refuse .badCut) s).2 ≠ none := by simp [Host.perform]
      exact absurd (congrArg Prod.snd hdone) (Command.performAll_ne_none hfails hrefused s)
    | some padded =>
      refine ⟨plan, padded, r.requestsFor plan, rfl, hpadded, ?_,
        conserves_requestsFor hplan hpadded⟩
      exact Command.run_eq_ok_iff.mpr ⟨performAll_recording hdone [], rfl⟩

namespace Editor

/-- The editor in memory is a host. -/
def host : Host Editor where
  reading := reading
  applyEdits edits := Command.attempt (applyBatch edits)
  insertSnippet s site := Command.attempt (insertSnippet s site)
  format e := (e.format, none)

theorem insertLogs_host (parser : Parser) (e : Editor) :
    host.insertLogs parser e = e.insertLogs parser := by
  have hperform : host.perform = perform := by
    funext request e
    cases request <;> rfl
  rw [Host.insertLogs, hperform]
  rfl

/-- The cursor in the body and the one at the name. -/
def twoCursors : Editor := arrowEditor [.cursor 0]

/-- The snippet in the body goes ahead of the log for the name, which was planned behind it; a call
to format ends both. -/
theorem twoCursors_conserved :
    ∃ e' plan padded asked,
      twoCursors.insertLogs (Parser.ofTables [assignedArrow]) = (e', .ok ⟨1, 1, 0⟩) ∧
      plan.mapM (padded? {} assignedArrow.text) = some padded ∧
      host.recording.insertLogs (Parser.ofTables [assignedArrow]) (twoCursors, []) =
        ((e', asked), .ok ⟨1, 1, 0⟩) ∧
      Conserves twoCursors.selections plan padded asked ⟨1, 1, 0⟩ := by
  obtain ⟨parse, hparse, -, -, hplan⟩ := assignedArrow_plans
  have htree : (Parser.ofTables [assignedArrow]).document? "javascript" assignedArrow.text =
      .ok (some (.ofParse assignedArrow.text parse)) :=
    Parser.document?_eq (Dialect.ofLanguageId?_languageId .js) hparse
  have hcommand : twoCursors.reading.insertLogs (Parser.ofTables [assignedArrow]) =
      .ok ⟨twoCursors.reading.requestsFor [bodySnippet, nameLog], ⟨1, 1, 0⟩⟩ := by
    rw [Reading.insertLogs_of_tree (r := twoCursors.reading) htree]
    exact congrArg (Except.map _) hplan
  obtain ⟨e', hdone⟩ : ∃ e', Command.performAll host.perform
      (twoCursors.reading.requestsFor [bodySnippet, nameLog]) twoCursors = (e', none) := by
    change ∃ e', Command.performAll host.perform
      [.snippet logSnippet (.cursor 12), .batch [_], .format] twoCursors = (e', none)
    simp only [Command.performAll, Host.perform, host, Command.attempt, insertSnippet, applyBatch,
      Edit.applyAll_singleton]
    exact ⟨_, rfl⟩
  have hrun : host.insertLogs (Parser.ofTables [assignedArrow]) twoCursors =
      (e', .ok ⟨1, 1, 0⟩) := by
    change Command.run host.perform (twoCursors.reading.insertLogs _) twoCursors = _
    rw [hcommand]
    exact Command.run_eq_ok_iff.mpr ⟨hdone, rfl⟩
  obtain ⟨plan, padded, asked, -, hpadded, hrecorded, hconserves⟩ :=
    host.insertLogs_conserves _ htree hrun
  rw [insertLogs_host] at hrun
  exact ⟨e', plan, padded, asked, hrun, hpadded, hrecorded, hconserves⟩

end Editor
end LogProbe
