import LogProbe.Editor.Basic
import LogProbe.Proofs.Edit.Indent
import LogProbe.Proofs.Editor.Schedule

/-! What an editor does with the requests for a plan: it carries out the rounds of the padded plan,
up to the first that fails. -/
namespace LogProbe
open Edit Insertion

/-- An insertion as it reaches the editor: edits are padded for their line. -/
def Insertion.padded? (i : Indent) (source : Text) : Insertion → Option Insertion
  | edit e => (i.reindentEdit? source e).map edit
  | snippet site s => some (snippet site s)

theorem Insertion.shape_padded? {i : Indent} {source : Text} {x y : Insertion}
    (h : x.padded? i source = some y) : y.shape = x.shape := by
  cases x with
  | snippet site s =>
    cases h
    rfl
  | edit e =>
    obtain ⟨e', he, rfl⟩ := Option.map_eq_some_iff.mp h
    exact congrArg (Prod.mk false) (Indent.span_reindentEdit? he)

theorem Insertion.mapM_padded?_cons {i : Indent} {source : Text} {x : Insertion}
    {rest padded : List Insertion} :
    (x :: rest).mapM (padded? i source) = some padded ↔ ∃ y ys, x.padded? i source = some y ∧
      rest.mapM (padded? i source) = some ys ∧ y :: ys = padded := by
  rw [List.mapM_cons]
  constructor
  · intro h
    obtain ⟨y, hy, h⟩ := Option.bind_eq_some_iff.mp h
    obtain ⟨ys, hys, h⟩ := Option.bind_eq_some_iff.mp h
    exact ⟨y, ys, hy, hys, Option.some.inj h⟩
  · rintro ⟨y, ys, hy, hys, rfl⟩
    rw [hy, hys]
    rfl

theorem Parser.document?_eq {parser : Parser} {languageId : String} {source : Text}
    {dialect : Dialect} {parse : Parse} (hdialect : Dialect.ofLanguageId? languageId = some dialect)
    (hparse : parser dialect.grammar source = .ok (some parse)) :
    parser.document? languageId source = .ok (some (.ofParse source parse)) := by
  simp [document?, hdialect, hparse]

/-- Requests after others are performed where those succeed. -/
theorem Command.performAll_append {σ : Type} (perform : Request → σ → σ × Option Failure)
    (requests rest : List Request) (s : σ) :
    performAll perform (requests ++ rest) s =
      match performAll perform requests s with
      | (s, none) => performAll perform rest s
      | (s, some failure) => (s, some failure) := by
  induction requests generalizing s with
  | nil => rfl
  | cons request requests ih =>
    rw [List.cons_append, performAll, performAll]
    cases perform request s with
    | mk s' failure =>
      cases failure with
      | none => exact ih s'
      | some failure => rfl

/-- A request that always fails is not got past. -/
theorem Command.performAll_ne_none {σ : Type} {perform : Request → σ → σ × Option Failure}
    {request : Request} {requests : List Request} (hfails : ∀ s, (perform request s).2 ≠ none)
    (h : request ∈ requests) (s : σ) : (performAll perform requests s).2 ≠ none := by
  induction requests generalizing s with
  | nil => cases h
  | cons first rest ih =>
    rw [performAll]
    cases hfirst : perform first s with
    | mk s' failure =>
      cases failure with
      | some failure => simp
      | none =>
        rcases List.mem_cons.mp h with rfl | h
        · exact absurd (congrArg Prod.snd hfirst) (hfails s)
        · exact ih h s'

/-- An edit that cannot be padded is refused, whatever is pending. -/
theorem Reading.refuse_mem_schedule {r : Reading} {plan : List Insertion}
    (h : plan.mapM (padded? r.indent r.text) = none) (pending : List Edit) :
    .refuse .badCut ∈ r.schedule pending plan := by
  induction plan generalizing pending with
  | nil => cases h
  | cons x rest ih =>
    have hrest : ∀ y, x.padded? r.indent r.text = some y →
        rest.mapM (padded? r.indent r.text) = none := by
      intro y hy
      rw [Option.eq_none_iff_forall_ne_some] at h ⊢
      intro ys hys
      exact h (y :: ys) (mapM_padded?_cons.mpr ⟨y, ys, hy, hys, rfl⟩)
    cases x with
    | edit change =>
      rw [schedule]
      cases hchange : r.indent.reindentEdit? r.text change with
      | none => simp
      | some change' =>
        apply ih
        apply hrest (edit change')
        rw [padded?, hchange, Option.map_some]
    | snippet site s =>
      rw [schedule, partition_pending, List.mem_append, List.mem_cons]
      exact .inr (.inr (ih (hrest _ rfl) _))

/-- The requests for a document that can be parsed, and what they report. -/
theorem Reading.insertLogs_of_tree {parser : Parser} {r : Reading} {tree : Tree}
    (htree : parser.document? r.languageId r.text = .ok (some tree)) :
    r.insertLogs parser = (Insertion.plan tree r.selections).map fun plan =>
      ⟨r.schedule [] plan ++ if plan.isEmpty then [] else [.format],
        { edits := plan.length - plan.countP (·.isSnippet), snippets := plan.countP (·.isSnippet),
          skipped := r.selections.length - plan.length }⟩ := by
  rw [insertLogs, htree]
  change Insertion.plan tree r.selections >>= _ = _
  cases Insertion.plan tree r.selections <;> rfl

/-- Without a grammar there are no requests. -/
theorem Reading.insertLogs_of_refused {parser : Parser} {r : Reading} {failure : Failure}
    (htree : parser.document? r.languageId r.text = .error failure) :
    r.insertLogs parser = .error failure := by
  rw [insertLogs, htree]

namespace Editor

/-- A run of requests ends with a text or with the failure of an edit. -/
def Settles (result : Editor × Option Failure) : Except Failure Text → Prop
  | .ok t => result.1.text = t ∧ result.2 = none
  | .error failure => result.2 = some failure

theorem settles_attempt {step : Editor → Except Failure Editor} {e : Editor}
    {outcome : Except Failure Text} (h : (step e).map (·.text) = outcome) :
    Settles (Command.attempt step e) outcome := by
  subst h
  rw [Command.attempt]
  cases step e with
  | error failure => rfl
  | ok e' => exact ⟨rfl, rfl⟩

theorem settles_batch (edits : List Edit) (e : Editor) :
    Settles (perform (.batch edits) e) (applyAll e.text edits) := by
  refine settles_attempt ?_
  rw [applyBatch]
  cases applyAll e.text edits <;> rfl

theorem settles_snippet (s : Snippet) (site : Selection) (e : Editor) :
    Settles (perform (.snippet s site) e) (applyAll e.text [(snippet site s).footprint]) := by
  refine settles_attempt ?_
  rw [insertSnippet]
  change ((applyAll e.text [(snippet site s).footprint] >>= _).map _) = _
  cases applyAll e.text [(snippet site s).footprint] <;> rfl

theorem settles_cons {request : Request} {rest : List Request} {batch : List Edit}
    {rounds : List (List Edit)}
    (hrequest : ∀ e, Settles (perform request e) (applyAll e.text batch))
    (hrest : ∀ e, Settles (Command.performAll perform rest e) (applyRounds e.text rounds))
    (e : Editor) : Settles (Command.performAll perform (request :: rest) e)
      (applyRounds e.text (batch :: rounds)) := by
  have hfirst := hrequest e
  rw [Command.performAll, applyRounds_cons]
  cases hperform : perform request e with
  | mk e' failure =>
    rw [hperform] at hfirst
    cases hbatch : applyAll e.text batch with
    | error cause =>
      rw [hbatch] at hfirst
      cases hfirst
      rfl
    | ok t =>
      rw [hbatch] at hfirst
      obtain ⟨rfl, hnone⟩ := hfirst
      cases hnone
      exact hrest e'

theorem settles_flush {edits : List Edit} {rest : List Request} {rounds : List (List Edit)}
    (hrest : ∀ e, Settles (Command.performAll perform rest e) (applyRounds e.text rounds))
    (e : Editor) : Settles (Command.performAll perform (Reading.flush edits ++ rest) e)
      (applyRounds e.text (edits :: rounds)) := by
  rw [Reading.flush]
  cases edits with
  | nil =>
    rw [applyRounds_cons, applyAll_nil]
    exact hrest e
  | cons edit edits => exact settles_cons (settles_batch (edit :: edits)) hrest e

/-- The requests for a plan carry out the rounds of the padded plan. -/
theorem settles_schedule {r : Reading} {plan padded : List Insertion}
    (h : plan.mapM (padded? r.indent r.text) = some padded) (pending : List Edit) (e : Editor) :
    Settles (Command.performAll perform (r.schedule pending plan) e)
      (applyRounds e.text (rounds pending padded)) := by
  induction plan generalizing padded pending e with
  | nil =>
    cases h
    have hnil : ∀ e, Settles (Command.performAll perform [] e) (applyRounds e.text []) :=
      fun e => ⟨rfl, rfl⟩
    rw [Reading.schedule, ← List.append_nil (Reading.flush pending)]
    exact settles_flush hnil e
  | cons x rest ih =>
    obtain ⟨y, ys, hy, hys, rfl⟩ := mapM_padded?_cons.mp h
    cases x with
    | edit change =>
      obtain ⟨change', hchange, rfl⟩ := Option.map_eq_some_iff.mp hy
      rw [Reading.schedule, hchange]
      exact ih hys _ e
    | snippet site s =>
      cases hy
      rw [Reading.schedule, partition_pending, rounds_snippet]
      exact settles_flush (settles_cons (settles_snippet s site) fun e => ih hys _ e) e

/-- Where an edit cannot be padded, the requests end in a failure. -/
theorem performAll_schedule_ne_none {r : Reading} {plan : List Insertion}
    (h : plan.mapM (padded? r.indent r.text) = none) (pending : List Edit) (e : Editor) :
    (Command.performAll perform (r.schedule pending plan) e).2 ≠ none := by
  apply Command.performAll_ne_none _ (Reading.refuse_mem_schedule h pending)
  intro e
  simp [perform]

theorem map_shape_of_mapM {i : Indent} {source : Text} {plan padded : List Insertion}
    (h : plan.mapM (padded? i source) = some padded) : padded.map shape = plan.map shape := by
  induction plan generalizing padded with
  | nil =>
    cases h
    rfl
  | cons x rest ih =>
    obtain ⟨y, ys, hy, hys, rfl⟩ := mapM_padded?_cons.mp h
    rw [List.map_cons, List.map_cons, shape_padded? hy, ih hys]

theorem insertLogs_of_tree {parser : Parser} {e : Editor} {tree : Tree}
    (htree : parser.document? e.languageId e.text = .ok (some tree)) :
    e.insertLogs parser = Command.run perform ((Insertion.plan tree e.selections).map fun plan =>
      ⟨e.reading.schedule [] plan ++ if plan.isEmpty then [] else [.format],
        { edits := plan.length - plan.countP (·.isSnippet), snippets := plan.countP (·.isSnippet),
          skipped := e.selections.length - plan.length }⟩) e :=
  congrArg (Command.run perform · e) (Reading.insertLogs_of_tree (r := e.reading) htree)

/-- Without a plan nothing is done. -/
theorem insertLogs_of_error {parser : Parser} {e : Editor} {tree : Tree} {failure : Failure}
    (htree : parser.document? e.languageId e.text = .ok (some tree))
    (hplan : Insertion.plan tree e.selections = .error failure) :
    e.insertLogs parser = (e, .error failure) := by
  rw [insertLogs_of_tree htree, hplan]
  rfl

/-- Formatting fails nothing and leaves the text. -/
theorem performAll_append_format (requests : List Request) (unchanged : Bool) (e : Editor) :
    (Command.performAll perform (requests ++ if unchanged then [] else [.format]) e).1.text =
        (Command.performAll perform requests e).1.text ∧
      (Command.performAll perform (requests ++ if unchanged then [] else [.format]) e).2 =
        (Command.performAll perform requests e).2 := by
  rw [Command.performAll_append]
  cases Command.performAll perform requests e with
  | mk e' failure =>
    cases failure with
    | none => cases unchanged <;> exact ⟨rfl, rfl⟩
    | some failure => exact ⟨rfl, rfl⟩

/-- The insertion of logs reports success where all requests for its plan succeed, and leaves the
text that they leave. -/
theorem insertLogs_spec {parser : Parser} {e : Editor} {tree : Tree} {plan : List Insertion}
    (htree : parser.document? e.languageId e.text = .ok (some tree))
    (hplan : Insertion.plan tree e.selections = .ok plan) :
    (e.insertLogs parser).1.text =
        (Command.performAll perform (e.reading.schedule [] plan) e).1.text ∧
      ((∃ report, (e.insertLogs parser).2 = .ok report) ↔
        (Command.performAll perform (e.reading.schedule [] plan) e).2 = none) := by
  have hformat := performAll_append_format (e.reading.schedule [] plan) plan.isEmpty e
  rw [insertLogs_of_tree htree, hplan, ← hformat.1, ← hformat.2]
  simp only [Except.map, Command.run]
  cases Command.performAll perform (e.reading.schedule [] plan ++
    if plan.isEmpty then [] else [.format]) e with
  | mk e' failure => cases failure <;> simp

end Editor
end LogProbe
