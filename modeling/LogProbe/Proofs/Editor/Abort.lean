import LogProbe.Proofs.Editor.Run

/-! Where the insertion of logs stops. A command is a row of requests, each done whole or not at
all; when one of them fails, the editor keeps what those before it did. -/
namespace LogProbe
open Insertion

def Request.isBatch : Request → Bool
  | .batch _ => true
  | _ => false

def Request.isSnippet : Request → Bool
  | .snippet _ _ => true
  | _ => false

/-- A run of requests fails at one of them, after all those before it. -/
theorem Command.exists_split_of_performAll {σ : Type} {perform : Request → σ → σ × Option Failure}
    {requests : List Request} {s s' : σ} {failure : Failure}
    (h : performAll perform requests s = (s', some failure)) :
    ∃ done request rest between, requests = done ++ request :: rest ∧
      performAll perform done s = (between, none) ∧
      perform request between = (s', some failure) := by
  induction requests generalizing s with
  | nil => cases h
  | cons request rest ih =>
    rw [performAll] at h
    cases hrequest : perform request s with
    | mk next outcome =>
      rw [hrequest] at h
      cases outcome with
      | none =>
        obtain ⟨done, request', rest', between, rfl, hdone, hfails⟩ := ih h
        refine ⟨request :: done, request', rest', between, rfl, ?_, hfails⟩
        rw [performAll, hrequest]
        exact hdone
      | some failure' =>
        cases h
        exact ⟨[], request, rest, s, rfl, rfl, hrequest⟩

/-- The requests that the logs of a plan are inserted by. -/
inductive Request.ForLogs : Request → Prop
  | batch (edits : List Edit) : ForLogs (.batch edits)
  | snippet (site : Selection) : ForLogs (.snippet logSnippet site)
  | refuse (failure : Failure) : ForLogs (.refuse failure)

namespace Insertion

theorem firstStop?_logSnippet : logSnippet.firstStop? = some 12 := by decide

variable {tree : Tree} {selections : List Selection} {plan : List Insertion}

/-- Every snippet of a plan is that of an empty log. -/
theorem eq_logSnippet (hplan : Insertion.plan tree selections = .ok plan) {site : Selection}
    {s : Snippet} (h : snippet site s ∈ plan) : s = logSnippet := by
  obtain ⟨selection, -, hselection⟩ := exists_propose?_of_mem_plan hplan h
  have hproposes := proposes tree selection
  rw [hselection] at hproposes
  cases hproposes with
  | snippet => rfl

end Insertion

namespace Reading
variable {r : Reading} {plan : List Insertion} {pending : List Edit}

theorem forLogs_flush {edits : List Edit} {request : Request} (h : request ∈ flush edits) :
    request.ForLogs := by
  rw [flush] at h
  split at h
  · cases h
  · rw [List.mem_singleton.mp h]
    exact .batch edits

theorem forLogs_schedule (hplan : ∀ site s, snippet site s ∈ plan → s = logSnippet)
    {request : Request} (h : request ∈ r.schedule pending plan) : request.ForLogs := by
  induction plan generalizing pending with
  | nil => exact forLogs_flush h
  | cons x rest ih =>
    have hrest : ∀ site s, snippet site s ∈ rest → s = logSnippet :=
      fun site s hs => hplan site s (List.mem_cons_of_mem x hs)
    cases x with
    | edit e =>
      rw [schedule] at h
      split at h
      · exact ih hrest h
      · rw [List.mem_singleton.mp h]
        exact .refuse _
    | snippet site s =>
      obtain rfl := hplan site s (by simp)
      rw [schedule, partition_pending, List.mem_append, List.mem_cons] at h
      rcases h with h | rfl | h
      · exact forLogs_flush h
      · exact .snippet site
      · exact ih hrest h

/-- Without snippets there is at most one request. -/
theorem length_schedule_le (h : ∀ x ∈ plan, x.isSnippet = false) :
    (r.schedule pending plan).length ≤ 1 := by
  induction plan generalizing pending with
  | nil =>
    rw [schedule, flush]
    split <;> simp
  | cons x rest ih =>
    cases x with
    | snippet site s => cases h (snippet site s) (by simp)
    | edit e =>
      rw [schedule]
      split
      · exact ih fun y hy => h y (by simp [hy])
      · simp

end Reading

namespace Editor

/-- A request that fails leaves the editor as it was. -/
theorem perform_eq_of_failure {request : Request} {e e' : Editor} {failure : Failure}
    (h : perform request e = (e', some failure)) : e' = e := by
  have hattempt {step : Editor → Except Failure Editor}
      (h : Command.attempt step e = (e', some failure)) : e' = e := by
    rw [Command.attempt] at h
    split at h <;> cases h
    rfl
  cases request with
  | batch edits => exact hattempt h
  | snippet s site => exact hattempt h
  | format => cases h
  | refuse cause =>
    cases h
    rfl

/-- What is seen of the requests in `done` beside the text. -/
structure Advanced (done : List Request) (e e' : Editor) : Prop where
  languageId : e'.languageId = e.languageId
  selections : e'.selections = e.selections
  indent : e'.indent = e.indent
  formats : e'.formats = e.formats
  batches : e'.batches = e.batches + done.countP (·.isBatch)
  cursors : ∃ added, e'.cursors = e.cursors ++ added ∧ added.length = done.countP (·.isSnippet)
  counted : done.length = done.countP (·.isBatch) + done.countP (·.isSnippet)

theorem Advanced.refl (e : Editor) : Advanced [] e e :=
  ⟨rfl, rfl, rfl, rfl, rfl, ⟨[], by simp, rfl⟩, rfl⟩

theorem Advanced.trans {done rest : List Request} {e e' e'' : Editor} (h : Advanced done e e')
    (h' : Advanced rest e' e'') : Advanced (done ++ rest) e e'' where
  languageId := h'.languageId.trans h.languageId
  selections := h'.selections.trans h.selections
  indent := h'.indent.trans h.indent
  formats := h'.formats.trans h.formats
  batches := by
    rw [List.countP_append, h'.batches, h.batches]
    omega
  cursors := by
    obtain ⟨added, hadded, hlength⟩ := h.cursors
    obtain ⟨added', hadded', hlength'⟩ := h'.cursors
    refine ⟨added ++ added', by rw [hadded', hadded, List.append_assoc], ?_⟩
    rw [List.length_append, List.countP_append, hlength, hlength']
  counted := by
    have hdone := h.counted
    have hrest := h'.counted
    rw [List.length_append, List.countP_append, List.countP_append]
    omega

/-- An editor is as it was exactly if no request was performed. -/
theorem Advanced.eq_iff {done : List Request} {e e' : Editor} (h : Advanced done e e')
    (hdone : Command.performAll perform done e = (e', none)) : e' = e ↔ done = [] := by
  constructor
  · rintro rfl
    have hbatches := h.batches
    obtain ⟨added, hadded, hlength⟩ := h.cursors
    obtain rfl : added = [] := List.self_eq_append_right.mp hadded
    have hsnippets : 0 = done.countP (·.isSnippet) := hlength
    have hcounted := h.counted
    exact List.eq_nil_of_length_eq_zero (by omega)
  · rintro rfl
    cases hdone
    rfl

/-- A request that succeeds is seen. -/
theorem advanced_perform {request : Request} {e e' : Editor} (hlogs : request.ForLogs)
    (h : perform request e = (e', none)) : Advanced [request] e e' := by
  cases hlogs with
  | batch edits =>
    rw [perform, Command.attempt, applyBatch] at h
    cases htext : Edit.applyAll e.text edits with
    | error failure =>
      rw [htext] at h
      cases h
    | ok t =>
      rw [htext] at h
      cases h
      exact ⟨rfl, rfl, rfl, rfl, rfl, ⟨[], by simp, rfl⟩, rfl⟩
  | snippet site =>
    rw [perform, Command.attempt, insertSnippet] at h
    cases htext : Edit.applyAll e.text [⟨site.start, site.stop, logSnippet.plainText⟩] with
    | error failure =>
      rw [htext] at h
      cases h
    | ok t =>
      rw [htext] at h
      cases h
      rw [firstStop?_logSnippet]
      exact ⟨rfl, rfl, rfl, rfl, rfl, ⟨_, rfl, rfl⟩, rfl⟩
  | refuse failure => cases h

theorem advanced_performAll {done : List Request} {e e' : Editor} (hlogs : ∀ r ∈ done, r.ForLogs)
    (h : Command.performAll perform done e = (e', none)) : Advanced done e e' := by
  induction done generalizing e with
  | nil =>
    cases h
    exact .refl _
  | cons request rest ih =>
    rw [Command.performAll] at h
    cases hrequest : perform request e with
    | mk next outcome =>
      rw [hrequest] at h
      cases outcome with
      | some failure => cases h
      | none =>
        have hfirst := advanced_perform (hlogs request (by simp)) hrequest
        exact hfirst.trans (ih (fun r hr => hlogs r (by simp [hr])) h)

/-- Formatting never fails, so that a request that does is one for the plan itself. -/
theorem exists_schedule_eq {scheduled done rest : List Request} {request : Request} {e e' : Editor}
    {failure : Failure} {unchanged : Bool}
    (hsplit : (scheduled ++ if unchanged then [] else [.format]) = done ++ request :: rest)
    (hfails : perform request e = (e', some failure)) :
    ∃ later, scheduled = done ++ request :: later := by
  have hformat : request ∉ if unchanged then [] else [Request.format] := by
    intro hmem
    cases unchanged with
    | true => cases hmem
    | false =>
      rw [List.mem_singleton.mp hmem] at hfails
      cases hfails
  rcases List.append_eq_append_iff.mp hsplit with ⟨more, -, hmore⟩ | ⟨more, hmore, hlater⟩
  · exact absurd (by rw [hmore]; simp) hformat
  · cases more with
    | nil => exact absurd (by rw [List.nil_append] at hlater; simp [← hlater]) hformat
    | cons request' later =>
      obtain ⟨rfl, -⟩ := List.cons.inj hlater
      exact ⟨later, hmore⟩

/-- Where the requests for a plan stop. -/
theorem stops_schedule {r : Reading} {plan : List Insertion} {e e' : Editor} {failure : Failure}
    {unchanged : Bool} (hplan : ∀ site s, snippet site s ∈ plan → s = logSnippet)
    (h : Command.performAll perform (r.schedule [] plan ++ if unchanged then [] else [.format]) e =
      (e', some failure)) :
    ∃ done request rest,
      (r.schedule [] plan ++ if unchanged then [] else [.format]) = done ++ request :: rest ∧
      Command.performAll perform done e = (e', none) ∧ perform request e' = (e', some failure) ∧
      Advanced done e e' ∧ ((∀ x ∈ plan, x.isSnippet = false) → done = []) := by
  obtain ⟨done, request, rest, between, hsplit, hdone, hfails⟩ :=
    Command.exists_split_of_performAll h
  obtain rfl := perform_eq_of_failure hfails
  obtain ⟨later, hschedule⟩ := exists_schedule_eq hsplit hfails
  refine ⟨done, request, rest, hsplit, hdone, hfails, advanced_performAll (fun r' hr => ?_) hdone,
    fun hnone => ?_⟩
  · have hmem : r' ∈ r.schedule [] plan := hschedule ▸ List.mem_append_left _ hr
    exact Reading.forLogs_schedule hplan hmem
  · have hlength : (r.schedule [] plan).length ≤ 1 := Reading.length_schedule_le hnone
    rw [hschedule, List.length_append, List.length_cons] at hlength
    exact List.eq_nil_of_length_eq_zero (by omega)

/-- When the insertion of logs fails, nothing was formatted, and the editor is as the requests
before the failing one have left it. It is as it was exactly if there were none, so whenever no
snippet is planned. -/
theorem insertLogs_error (parser : Parser) (e : Editor) (failure : Failure)
    (h : (e.insertLogs parser).2 = .error failure) :
    ∃ done e', e.insertLogs parser = (e', .error failure) ∧
      Command.performAll perform done e = (e', none) ∧ Advanced done e e' ∧
      (e.reading.insertLogs parser = .error failure ∧ done = [] ∨
        ∃ command request rest, e.reading.insertLogs parser = .ok command ∧
          command.requests = done ++ request :: rest ∧
          perform request e' = (e', some failure)) ∧
      (e' = e ↔ done = []) ∧
      ∀ tree plan, parser.document? e.languageId e.text = .ok (some tree) →
        Insertion.plan tree e.selections = .ok plan → (∀ x ∈ plan, x.isSnippet = false) →
          e' = e := by
  have hrun : e.insertLogs parser = Command.run perform (e.reading.insertLogs parser) e := rfl
  rcases htree : parser.document? e.languageId e.text with refused | _ | tree
  · have hreading := Reading.insertLogs_of_refused (r := e.reading) htree
    rw [hrun, hreading] at h ⊢
    cases h
    exact ⟨[], e, rfl, rfl, .refl e, .inl ⟨rfl, rfl⟩, by simp, fun _ _ _ _ _ => rfl⟩
  · have hreading : parser.document? e.reading.languageId e.reading.text = .ok none := htree
    rw [hrun, Reading.insertLogs, hreading] at h
    cases h
  · have hreading := Reading.insertLogs_of_tree (r := e.reading) htree
    change _ = (Insertion.plan tree e.selections).map _ at hreading
    cases hplan : Insertion.plan tree e.selections with
    | error cause =>
      rw [hplan] at hreading
      rw [hrun, hreading] at h ⊢
      cases h
      exact ⟨[], e, rfl, rfl, .refl e, .inl ⟨rfl, rfl⟩, by simp, fun _ _ _ _ _ => rfl⟩
    | ok plan =>
      rw [hplan, Except.map] at hreading
      rw [hreading, Command.run] at hrun
      cases hall : Command.performAll perform (e.reading.schedule [] plan ++
        if plan.isEmpty then [] else [.format]) e with
      | mk e' outcome =>
        rw [hall] at hrun
        rw [hrun] at h
        cases outcome with
        | none => cases h
        | some failure' =>
          cases h
          obtain ⟨done, request, rest, hsplit, hdone, hfails, hadvanced, hnone⟩ :=
            stops_schedule (fun site s => eq_logSnippet hplan) hall
          have hsame := hadvanced.eq_iff hdone
          refine ⟨done, e', hrun, hdone, hadvanced,
            .inr ⟨_, request, rest, hreading, hsplit, hfails⟩, hsame, ?_⟩
          intro tree' plan' htree' hplan' hsnippets
          cases htree'
          cases hplan.symm.trans hplan'
          exact hsame.mpr (hnone hsnippets)

/-- A comment with a character of two bytes, and a statement. -/
def accentComment : ParseTable where
  grammar := .javascript
  text := "// é\nx".toList
  hasErrors := false
  rows := [
    ⟨none, "program", true, none, 0, 7, none⟩,
    ⟨some 0, "comment", true, none, 0, 5, none⟩,
    ⟨some 0, "expression_statement", true, none, 6, 7, none⟩,
    ⟨some 2, "identifier", true, none, 6, 7, none⟩]

/-- One cursor at the statement and one within the character. -/
def accentEditor : Editor where
  languageId := "javascript"
  text := accentComment.text
  selections := [.cursor 6, .cursor 4]

def accentLog : Edit := .insertion 7 "\nconsole.log('*** x »', x)".toList

/-- The editor with the log, before the snippet is refused. -/
def loggedEditor : Editor :=
  { accentEditor with text := "// é\nx\nconsole.log('*** x »', x)".toList, batches := 1 }

theorem accentEditor_insertLogs :
    accentEditor.insertLogs (Parser.ofTables [accentComment]) =
      (loggedEditor, .error (.outOfBounds 4 34)) := by
  obtain ⟨parse, hparse, hplan⟩ : ∃ parse,
      Parser.ofTables [accentComment] .javascript accentComment.text = .ok (some parse) ∧
      Insertion.plan (.ofParse accentComment.text parse) accentEditor.selections =
        .ok [edit accentLog, snippet (.cursor 4) logSnippet] := by
    refine ⟨_, rfl, ?_⟩
    rw [plan_of_pairwise (by decide)]
    rfl
  have htree := Parser.document?_eq (Dialect.ofLanguageId?_languageId .js) hparse
  have hbatch : perform (.batch [accentLog]) accentEditor = (loggedEditor, none) := by
    rw [perform, Command.attempt, applyBatch, Edit.applyAll_singleton]
    rfl
  have hsnippet : perform (.snippet logSnippet (.cursor 4)) loggedEditor =
      (loggedEditor, some (.outOfBounds 4 34)) := by
    rw [perform, Command.attempt, insertSnippet, Edit.applyAll_singleton]
    rfl
  have hschedule : accentEditor.reading.schedule []
      [edit accentLog, snippet (.cursor 4) logSnippet] =
        [.batch [accentLog], .snippet logSnippet (.cursor 4)] := rfl
  rw [insertLogs_of_tree (e := accentEditor) htree, hplan, Except.map, Command.run, hschedule]
  simp only [List.cons_append, Command.performAll, hbatch, hsnippet]

/-- The log for the statement is in the text when the snippet is refused. -/
theorem refused_snippet_keeps_log :
    (accentEditor.insertLogs (Parser.ofTables [accentComment])).2 = .error (.outOfBounds 4 34) ∧
      accentEditor.text = "// é\nx".toList ∧ accentEditor.batches = 0 ∧
      (accentEditor.insertLogs (Parser.ofTables [accentComment])).1.text =
        "// é\nx\nconsole.log('*** x »', x)".toList ∧
      (accentEditor.insertLogs (Parser.ofTables [accentComment])).1.batches = 1 := by
  rw [accentEditor_insertLogs]
  exact ⟨rfl, rfl, rfl, rfl, rfl⟩

theorem refused_snippet_stops :
    ∃ done, Command.performAll perform done accentEditor = (loggedEditor, none) ∧
      Advanced done accentEditor loggedEditor ∧ done ≠ [] := by
  have hrun := accentEditor_insertLogs
  obtain ⟨done, e', he', hdone, hadvanced, -, hsame, -⟩ :=
    insertLogs_error (Parser.ofTables [accentComment]) accentEditor (.outOfBounds 4 34)
      (by rw [hrun])
  obtain rfl : loggedEditor = e' := (Prod.mk.inj (hrun.symm.trans he')).1
  exact ⟨done, hdone, hadvanced, mt hsame.mpr (by decide)⟩

end Editor
end LogProbe
