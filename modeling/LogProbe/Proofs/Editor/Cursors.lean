import LogProbe.Proofs.Edit.Growth
import LogProbe.Proofs.Editor.Abort
import LogProbe.Proofs.Editor.Conservation

/-! The cursors that snippets leave behind. Each is recorded when its snippet is put in; what is
carried out after that lies above the snippet and moves it by what it adds less what it removes,
while the recorded cursor stays where it is. -/
namespace LogProbe
open Edit Insertion

/-- The changes that a request makes to the text, as one batch. -/
def Request.changes : Request → List Edit
  | .batch edits => edits
  | .snippet s site => [(Insertion.snippet site s).footprint]
  | _ => []

/-- The cursors that a request leaves behind. -/
def Request.cursors : Request → List Nat
  | .snippet s site => (s.firstStop?.map (site.start + ·)).toList
  | _ => []

/-- The offset lies between the parentheses of a log without arguments. -/
def Text.HasCallAt (t : Text) (n : Nat) : Prop :=
  ∃ above below, t = above ++ "console.log(".toList ++ ')' :: below ∧
    (above ++ "console.log(".toList).size = n

namespace Editor
variable {e e' : Editor} {request : Request} {requests : List Request}

/-- What a request does to the editor where it succeeds. -/
theorem perform_changes (h : perform request e = (e', none)) :
    applyAll e.text request.changes = .ok e'.text ∧ e'.cursors = e.cursors ++ request.cursors := by
  cases request with
  | batch edits =>
    rw [perform, Command.attempt, applyBatch] at h
    cases htext : applyAll e.text edits with
    | error failure =>
      rw [htext] at h
      cases h
    | ok t =>
      rw [htext] at h
      cases h
      exact ⟨htext, (List.append_nil _).symm⟩
  | snippet s site =>
    rw [perform, Command.attempt, insertSnippet] at h
    cases htext : applyAll e.text [⟨site.start, site.stop, s.plainText⟩] with
    | error failure =>
      rw [htext] at h
      cases h
    | ok t =>
      rw [htext] at h
      cases h
      exact ⟨htext, rfl⟩
  | format =>
    cases h
    exact ⟨applyAll_nil _, (List.append_nil _).symm⟩
  | refuse failure => cases h

/-- Requests that succeed carry out their changes in turn. -/
theorem performAll_changes (h : Command.performAll perform requests e = (e', none)) :
    applyRounds e.text (requests.map Request.changes) = .ok e'.text ∧
      e'.cursors = e.cursors ++ requests.flatMap Request.cursors := by
  induction requests generalizing e with
  | nil =>
    cases h
    exact ⟨rfl, (List.append_nil _).symm⟩
  | cons request rest ih =>
    rw [Command.performAll] at h
    cases hrequest : perform request e with
    | mk next outcome =>
      rw [hrequest] at h
      cases outcome with
      | some failure => cases h
      | none =>
        obtain ⟨htext, hcursors⟩ := perform_changes hrequest
        obtain ⟨hrounds, hrest⟩ := ih h
        refine ⟨?_, by rw [hrest, hcursors, List.append_assoc, List.flatMap_cons]⟩
        rw [List.map_cons, applyRounds_cons, htext]
        exact hrounds

/-- Nothing after the snippet reaches below its start or below the start of what comes before. -/
def StaysClear (s : Snippet) (site : Selection) (after : List Request) : Prop :=
  Rising ((Request.snippet s site :: after).map Request.changes)

/-- A snippet ends up where it was put, moved by what is carried out after it. -/
theorem exists_snippet_of_performAll {before after : List Request} {s : Snippet} {site : Selection}
    (h : Command.performAll perform (before ++ .snippet s site :: after) e = (e', none))
    (hclear : StaysClear s site after) :
    ∃ above below, e'.text = above ++ s.plainText ++ below ∧
      (above.size : Int) = site.start + growth (after.flatMap Request.changes) := by
  rw [Command.performAll_append] at h
  cases hbefore : Command.performAll perform before e with
  | mk between failure =>
    rw [hbefore] at h
    cases failure with
    | some failure => cases h
    | none =>
      have hrounds := (performAll_changes h).1
      rw [List.map_cons] at hrounds
      obtain ⟨t, ht, hafter⟩ := applyRounds_cons_eq_ok hrounds
      obtain ⟨hstop, hrising⟩ := rising_cons.mp hclear
      change applyAll between.text [(snippet site s).footprint] = _ at ht
      obtain ⟨above, replaced, below, -, hstart, -, rfl⟩ := exists_split_of_applyAll_one ht
      rw [List.append_assoc] at hafter
      obtain ⟨top, htop, hsize⟩ := exists_lifts_of_applyRounds hafter hrising fun x hx =>
        hstart ▸ hstop _ (List.mem_singleton_self _) x hx
      refine ⟨top, below, by rw [htop, List.append_assoc]; rfl, ?_⟩
      rw [hsize, hstart, List.flatMap_def]
      rfl

theorem plainText_logSnippet : logSnippet.plainText = "console.log(".toList ++ [')'] := by decide

theorem flatMap_cursors (h : ∀ s site, .snippet s site ∈ requests → s = logSnippet) :
    requests.flatMap Request.cursors =
      (requests.filterMap Request.snippet?).map fun x => x.1.start + 12 := by
  induction requests with
  | nil => rfl
  | cons request rest ih =>
    rw [List.flatMap_cons, ih fun s site hs => h s site (List.mem_cons_of_mem _ hs)]
    cases request with
    | snippet s site =>
      obtain rfl := h s site List.mem_cons_self
      rw [Request.cursors, firstStop?_logSnippet]
      rfl
    | batch edits => rfl
    | format => rfl
    | refuse failure => rfl

/-- The requests of an insertion that succeeds: they are carried out one and all, and those for a
snippet put in an empty log and are counted. -/
theorem exists_requests {parser : Parser} {report : InsertReport}
    (h : e.insertLogs parser = (e', .ok report)) :
    ∃ requests, e.reading.insertLogs parser = .ok ⟨requests, report⟩ ∧
      Command.performAll perform requests e = (e', none) ∧
      (∀ s site, .snippet s site ∈ requests → s = logSnippet) ∧
      report.snippets = (requests.filterMap Request.snippet?).length := by
  rw [insertLogs] at h
  generalize hr : e.reading = r at h ⊢
  rcases htree : parser.document? r.languageId r.text with refused | _ | tree
  · rw [Reading.insertLogs_of_refused htree] at h
    cases h
  · have hnone : r.insertLogs parser = .ok ⟨[], {}⟩ := by rw [Reading.insertLogs, htree]
    rw [hnone] at h
    obtain ⟨hdone, rfl⟩ := Command.run_eq_ok_iff.mp h
    exact ⟨[], hnone, hdone, by simp, rfl⟩
  · have hreading := Reading.insertLogs_of_tree htree
    cases hplan : Insertion.plan tree r.selections with
    | error failure =>
      rw [hreading, hplan] at h
      cases h
    | ok plan =>
      rw [hplan, Except.map] at hreading
      rw [hreading] at h ⊢
      obtain ⟨hdone, rfl⟩ := Command.run_eq_ok_iff.mp h
      refine ⟨_, rfl, hdone, fun s site hs => ?_, ?_⟩
      · rcases List.mem_append.mp hs with hs | hs
        · cases Reading.forLogs_schedule (fun site s => eq_logSnippet hplan) hs
          rfl
        · cases hempty : plan.isEmpty <;> simp [hempty] at hs
      · cases hpadded : plan.mapM (padded? r.indent r.text) with
        | some padded => exact (conserves_requestsFor hplan hpadded).countSnippets
        | none =>
          have hrefused := List.mem_append_left (if plan.isEmpty then [] else [.format])
            (Reading.refuse_mem_schedule hpadded [])
          have hfails : ∀ e, (perform (.refuse .badCut) e).2 ≠ none := by simp [perform]
          exact absurd (congrArg Prod.snd hdone) (Command.performAll_ne_none hfails hrefused e)

/-- An editor without cursors records one for each snippet, twelve bytes behind the start of its
site. Where nothing is carried out after the snippet below its start, the snippet ends up moved by
what those changes add less what they remove; the cursor stands between its parentheses exactly if
that is nothing. So all cursors stand between parentheses if this holds for every snippet. -/
theorem insertLogs_cursors (parser : Parser) (e e' : Editor) (report : InsertReport)
    (hcursors : e.cursors = []) (h : e.insertLogs parser = (e', .ok report)) :
    ∃ requests, e.reading.insertLogs parser = .ok ⟨requests, report⟩ ∧
      e'.cursors = (requests.filterMap Request.snippet?).map (fun x => x.1.start + 12) ∧
      e'.cursors.length = report.snippets ∧
      (∀ before s site after, requests = before ++ .snippet s site :: after →
        StaysClear s site after →
          ∃ above below, e'.text = above ++ "console.log(".toList ++ ')' :: below ∧
            (above.size : Int) = site.start + growth (after.flatMap Request.changes)) ∧
      ((∀ before s site after, requests = before ++ .snippet s site :: after →
        StaysClear s site after ∧ growth (after.flatMap Request.changes) = 0) →
          ∀ n ∈ e'.cursors, e'.text.HasCallAt n) := by
  obtain ⟨requests, hreading, hdone, hlogs, hcount⟩ := exists_requests h
  have hrecorded : e'.cursors = (requests.filterMap Request.snippet?).map fun x =>
      x.1.start + 12 := by
    rw [(performAll_changes hdone).2, hcursors, List.nil_append, flatMap_cursors hlogs]
  have hsnippet : ∀ before s site after, requests = before ++ .snippet s site :: after →
      StaysClear s site after →
        ∃ above below, e'.text = above ++ "console.log(".toList ++ ')' :: below ∧
          (above.size : Int) = site.start + growth (after.flatMap Request.changes) := by
    rintro before s site after rfl hclear
    obtain ⟨above, below, htext, hsize⟩ := exists_snippet_of_performAll hdone hclear
    rw [hlogs s site (by simp), plainText_logSnippet] at htext
    exact ⟨above, below, by simpa using htext, hsize⟩
  refine ⟨requests, hreading, hrecorded, by rw [hrecorded, List.length_map, hcount], hsnippet,
    fun hstill n hn => ?_⟩
  rw [hrecorded, List.mem_map] at hn
  obtain ⟨⟨site, s⟩, hmem, rfl⟩ := hn
  obtain ⟨request, hrequest, hs⟩ := List.mem_filterMap.mp hmem
  obtain ⟨before, after, hsplit⟩ := List.append_of_mem hrequest
  cases request with
  | snippet s' site' =>
    cases hs
    obtain ⟨hclear, hgrowth⟩ := hstill before _ _ after hsplit
    obtain ⟨above, below, htext, hsize⟩ := hsnippet before _ _ after hsplit hclear
    refine ⟨above, below, htext, ?_⟩
    have hcall : Text.size "console.log(".toList = 12 := by decide
    rw [Text.size_append, hcall]
    dsimp only
    omega
  | batch edits => cases hs
  | format => cases hs
  | refuse failure => cases hs

/-- A comment and the end of its line. -/
def commentLine : ParseTable where
  grammar := .javascript
  text := "// only a comment\n".toList
  hasErrors := false
  rows := [
    ⟨none, "program", true, none, 0, 18, none⟩,
    ⟨some 0, "comment", true, none, 0, 17, none⟩]

/-- A cursor below the comment, and others. -/
def commentEditor (others : List Selection) : Editor where
  languageId := "javascript"
  text := commentLine.text
  selections := .cursor 18 :: others

theorem commentEditor_requests :
    (commentEditor [⟨0, 13⟩]).reading.insertLogs (Parser.ofTables [commentLine]) =
      .ok ⟨[.snippet logSnippet (.cursor 18), .snippet logSnippet ⟨0, 13⟩, .format],
        ⟨0, 2, 0⟩⟩ ∧
    (commentEditor [.cursor 0]).reading.insertLogs (Parser.ofTables [commentLine]) =
      .ok ⟨[.snippet logSnippet (.cursor 18), .snippet logSnippet (.cursor 0), .format],
        ⟨0, 2, 0⟩⟩ := by
  obtain ⟨parse, hparse, hinPlace, habove⟩ : ∃ parse,
      Parser.ofTables [commentLine] .javascript commentLine.text = .ok (some parse) ∧
      Insertion.plan (.ofParse commentLine.text parse) (commentEditor [⟨0, 13⟩]).selections =
        .ok [snippet (.cursor 18) logSnippet, snippet ⟨0, 13⟩ logSnippet] ∧
      Insertion.plan (.ofParse commentLine.text parse) (commentEditor [.cursor 0]).selections =
        .ok [snippet (.cursor 18) logSnippet, snippet (.cursor 0) logSnippet] := by
    refine ⟨_, rfl, ?_, ?_⟩
    all_goals
      rw [plan_of_pairwise (by decide)]
      rfl
  have htree : (Parser.ofTables [commentLine]).document? "javascript" commentLine.text =
      .ok (some (.ofParse commentLine.text parse)) :=
    Parser.document?_eq (Dialect.ofLanguageId?_languageId .js) hparse
  constructor
  · rw [Reading.insertLogs_of_tree (r := (commentEditor [⟨0, 13⟩]).reading) htree]
    exact congrArg (Except.map _) hinPlace
  · rw [Reading.insertLogs_of_tree (r := (commentEditor [.cursor 0]).reading) htree]
    exact congrArg (Except.map _) habove

/-- Two snippets, the upper one in place of as many bytes as it has, and their cursors where they
should be. -/
theorem commentEditor_cursors :
    ∃ e', (commentEditor [⟨0, 13⟩]).insertLogs (Parser.ofTables [commentLine]) =
        (e', .ok ⟨0, 2, 0⟩) ∧
      e'.text = "console.log()ment\nconsole.log()".toList ∧ e'.cursors = [30, 12] ∧
      ∀ n ∈ e'.cursors, e'.text.HasCallAt n := by
  obtain ⟨e', hrun, htext, hrecorded⟩ : ∃ e',
      (commentEditor [⟨0, 13⟩]).insertLogs (Parser.ofTables [commentLine]) = (e', .ok ⟨0, 2, 0⟩) ∧
      e'.text = "console.log()ment\nconsole.log()".toList ∧ e'.cursors = [30, 12] := by
    rw [insertLogs, commentEditor_requests.1]
    simp only [Command.run, Command.performAll, perform, Command.attempt, insertSnippet,
      Edit.applyAll_singleton]
    exact ⟨_, rfl, rfl, rfl⟩
  obtain ⟨requests, hrequests, -, -, -, hall⟩ := insertLogs_cursors (Parser.ofTables [commentLine])
    (commentEditor [⟨0, 13⟩]) e' ⟨0, 2, 0⟩ rfl hrun
  rw [commentEditor_requests.1] at hrequests
  refine ⟨e', hrun, htext, hrecorded, hall fun before s site after hsplit => ?_⟩
  cases hrequests
  rcases before with _ | ⟨_, _ | ⟨_, before⟩⟩
  · cases hsplit
    exact ⟨by unfold StaysClear Rising; decide, by decide⟩
  · cases hsplit
    exact ⟨by unfold StaysClear Rising; decide, by decide⟩
  · -- what is left behind both snippets is none
    simp only [List.cons_append, List.cons.injEq] at hsplit
    cases before <;> simp at hsplit

theorem not_hasCallAt_of_charAfter? {t : Text} {n : Nat} {c : Char} (h : t.charAfter? n = some c)
    (hc : c ≠ ')') : ¬ t.HasCallAt n := by
  rintro ⟨above, below, rfl, rfl⟩
  rw [Text.charAfter?_append] at h
  exact hc (Option.some.inj h).symm

/-- The snippet above the comment moves the one below it, whose cursor stays at the end of the
comment. -/
theorem commentEditor_stale_cursor :
    ∃ e', (commentEditor [.cursor 0]).insertLogs (Parser.ofTables [commentLine]) =
        (e', .ok ⟨0, 2, 0⟩) ∧
      (commentEditor [.cursor 0]).cursors = [] ∧
      (∀ s ∈ (commentEditor [.cursor 0]).selections, s.LiesIn commentLine.text) ∧
      e'.text = "console.log()// only a comment\nconsole.log()".toList ∧
      e'.cursors = [30, 12] ∧ ¬ ∀ n ∈ e'.cursors, e'.text.HasCallAt n := by
  rw [insertLogs, commentEditor_requests.2]
  simp only [Command.run, Command.performAll, perform, Command.attempt, insertSnippet,
    Edit.applyAll_singleton]
  refine ⟨_, rfl, rfl, by decide, rfl, rfl, fun hall => ?_⟩
  exact not_hasCallAt_of_charAfter? (c := '\n') rfl (by decide) (hall 30 List.mem_cons_self)

end Editor
end LogProbe
