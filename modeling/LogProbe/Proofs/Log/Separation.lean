import LogProbe.Proofs.Log.Footprint
import LogProbe.Proofs.Syntax.Leaves

/-! Which logs are statements of their own. A log has no semicolon, so that what follows it in the
text decides where it ends. -/
namespace LogProbe

namespace Text

/-- Whether a call goes on with the text, even over line breaks. -/
def continuesCall (t : Text) : Bool :=
  match t.dropWhile isBlank with
  | [] => false
  | c :: _ => c == '(' || c == '[' || c == '\x60'

/-- Whether a call in front of the text is a statement of its own: it is followed by the end of the
text or of the block, a semicolon, a comment, or a line break with nothing to continue it. -/
def endsCall (t : Text) : Bool :=
  match t.dropWhile isPadding with
  | [] => true
  | c :: rest =>
    c == '\x7d' || c == ';' || (c == '/' && (startsWith rest '/' || startsWith rest '*')) ||
      (isLineBreak c && !continuesCall rest)

theorem continuesCall_of_not_isBlank {c : Char} (h : isBlank c = false) (t : Text) :
    continuesCall (c :: t) = (c == '(' || c == '[' || c == '\x60') := by
  rw [continuesCall, List.dropWhile_cons_of_neg (by simp [h])]

theorem endsCall_newline (t : Text) : endsCall ('\n' :: t) = !continuesCall t := by
  rw [endsCall, List.dropWhile_cons_of_neg (by decide)]
  rfl

end Text

namespace Placement

/-- What comes before a log, from what is above its frame and what the frame keeps. -/
def upToLog (above kept : Text) : Placement → Text
  | inside _ => above ++ ['\n']
  | before p _ => if standsInBlock p then above else above ++ " \x7b\n".toList
  | after p =>
    if standsInBlock p then above ++ ['\n'] else above ++ " \x7b\n".toList ++ kept ++ ['\n']

/-- What follows a log, from what its frame keeps and what is below it. -/
def fromLog (kept below : Text) : Placement → Text
  | inside _ => below
  | before p lead =>
    if standsInBlock p then '\n' :: lead ++ below
    else '\n' :: lead ++ kept ++ "\n\x7d".toList ++ below
  | after p => if standsInBlock p then below else "\n\x7d".toList ++ below

/-- The condition under which a log ends where it should: what the source has behind its place ends
a call, unless a new block does, and what it is put in front of does not continue one. -/
def EndsLog (kept below : Text) : Placement → Prop
  | inside _ => Text.endsCall below = true
  | before p lead =>
    if standsInBlock p then Text.continuesCall (lead ++ below) = false
    else Text.continuesCall (lead ++ kept ++ "\n\x7d".toList ++ below) = false
  | after p => standsInBlock p = true → Text.endsCall below = true

theorem endsCall_fromLog_iff {r : Placement} {kept below : Text} :
    Text.endsCall (r.fromLog kept below) = true ↔ r.EndsLog kept below := by
  cases r with
  | inside p => exact Iff.rfl
  | before p lead =>
    simp only [fromLog, EndsLog]
    split <;> simp [Text.endsCall_newline]
  | after p =>
    simp only [fromLog, EndsLog]
    split
    · rename_i hblock
      simp [hblock]
    · rename_i hblock
      have hbrace : Text.endsCall ("\n\x7d".toList ++ below) = true := by
        change Text.endsCall ('\n' :: '\x7d' :: below) = true
        rw [Text.endsCall_newline, Text.continuesCall_of_not_isBlank (by decide)]
        rfl
      simp only [hbrace, hblock, Bool.false_eq_true, false_imp_iff]

/-- A log ahead of a value that is returned always ends where it should. -/
theorem endsLog_returnLead (p : Place) (kept below : Text) :
    (before p returnLead).EndsLog kept below := by
  have hreturn (rest : Text) : Text.continuesCall (returnLead ++ rest) = false :=
    Text.continuesCall_of_not_isBlank (by decide) _
  rw [EndsLog, List.append_assoc, List.append_assoc]
  split <;> exact hreturn _

/-- A log stands between what comes before it and what follows it. -/
theorem append_frame {source above dropped kept below log : Text} {r : Placement}
    (h : (r.frame log).Splits source above dropped kept below) :
    above ++ (r.frame log).ahead ++ kept ++ (r.frame log).behind ++ below =
      r.upToLog above kept ++ log ++ r.fromLog kept below := by
  cases r with
  | inside p =>
    obtain ⟨-, rfl⟩ := Frame.Splits.of_insertion h
    simp [frame, Frame.insertion, upToLog, fromLog]
  | before p lead =>
    rw [frame] at h ⊢
    split at h <;> rename_i hblock
    · obtain ⟨-, rfl⟩ := h.of_insertion
      simp [Frame.insertion, upToLog, fromLog, hblock]
    · simp [upToLog, fromLog, hblock]
  | after p =>
    rw [frame] at h ⊢
    split at h <;> rename_i hblock
    · obtain ⟨-, rfl⟩ := h.of_insertion
      simp [Frame.insertion, upToLog, fromLog, hblock]
    · simp [upToLog, fromLog, hblock]

end Placement

namespace Insertion
open Edit

/-- For every edit of a plan: where its log stands in the text that the edit leaves, and the exact
condition under which the log is a statement of its own there. -/
theorem log_ends_iff (source : Text) (parse : Parse) (selections : List Selection)
    (plan : List Insertion) (e : Edit) (hnested : parse.root.nested source = true)
    (hplan : Insertion.plan (.ofParse source parse) selections = .ok plan) (he : edit e ∈ plan) :
    ∃ s ∈ selections, ∃ target r echo above dropped kept below,
      LogFor (.ofParse source parse) s target r echo ∧
      r.render? source echo.statement = some e ∧
      (r.frame echo.statement).Splits source above dropped kept below ∧
      applyAll source [e] =
        .ok (r.upToLog above kept ++ echo.statement ++ r.fromLog kept below) ∧
      (Text.endsCall (r.fromLog kept below) = true ↔ r.EndsLog kept below) := by
  obtain ⟨s, hs, hpropose⟩ := exists_propose?_of_mem_plan hplan he
  have hproposes := proposes (.ofParse source parse) s
  rw [hpropose] at hproposes
  cases hproposes with
  | @log target r echo _ origin rendered =>
    have hsound : r.place.label.Sound source :=
      Tree.labelsSound_ofParse hnested _ origin.place_mem_places
    obtain ⟨above, dropped, kept, below, hsplits⟩ :=
      (Placement.frame_sound hsound echo.statement).splits
    obtain ⟨e', he', hresult⟩ := hsplits.applyAll
    have hrender := Placement.render?_eq_edit? hsound echo.statement
    obtain rfl : e' = e := Option.some.inj ((hrender.trans he').symm.trans rendered)
    rw [Placement.append_frame hsplits] at hresult
    exact ⟨s, hs, target, r, echo, above, dropped, kept, below, origin, rendered, hsplits, hresult,
      Placement.endsCall_fromLog_iff⟩

/-- A function whose body stands on the line of its brace. -/
def oneLineBody : ParseTable where
  grammar := .javascript
  text := "function f() \x7b return; \x7d\n".toList
  hasErrors := false
  rows := [
    ⟨none, "program", true, none, 0, 25, none⟩,
    ⟨some 0, "function_declaration", true, none, 0, 24, none⟩,
    ⟨some 1, "function", false, none, 0, 8, none⟩,
    ⟨some 1, "identifier", true, some "name", 9, 10, none⟩,
    ⟨some 1, "formal_parameters", true, some "parameters", 10, 12, none⟩,
    ⟨some 4, "(", false, none, 10, 11, none⟩,
    ⟨some 4, ")", false, none, 11, 12, none⟩,
    ⟨some 1, "statement_block", true, some "body", 13, 24, none⟩,
    ⟨some 7, "\x7b", false, none, 13, 14, none⟩,
    ⟨some 7, "return_statement", true, none, 15, 22, none⟩,
    ⟨some 9, "return", false, none, 15, 21, none⟩,
    ⟨some 9, ";", false, none, 21, 22, none⟩,
    ⟨some 7, "\x7d", false, none, 23, 24, none⟩]

/-- The log for the name of the function, at the start of its body. -/
def bodyLog : Edit := .insertion 14 "\nconsole.log('*** f')".toList

theorem oneLineBody_planned :
    ∃ parse, oneLineBody.parse? = some parse ∧ parse.root.nested oneLineBody.text = true ∧
      Insertion.plan (.ofParse oneLineBody.text parse) [.cursor 9] = .ok [edit bodyLog] := by
  refine ⟨_, rfl, by decide +kernel, ?_⟩
  rw [plan_of_pairwise (by decide)]
  rfl

theorem oneLineBody_log :
    ∃ parse target r echo above kept below, oneLineBody.parse? = some parse ∧
      LogFor (.ofParse oneLineBody.text parse) (.cursor 9) target r echo ∧
      applyAll oneLineBody.text [bodyLog] =
        .ok (r.upToLog above kept ++ echo.statement ++ r.fromLog kept below) := by
  obtain ⟨parse, hparse, hnested, hplan⟩ := oneLineBody_planned
  obtain ⟨s, hs, target, r, echo, above, dropped, kept, below, horigin, -, -, hresult, -⟩ :=
    log_ends_iff oneLineBody.text parse [.cursor 9] _ bodyLog hnested hplan (by simp)
  obtain rfl := List.mem_singleton.mp hs
  exact ⟨parse, target, r, echo, above, kept, below, hparse, horigin, hresult⟩

/-- The statement of the body goes on behind the log, on the same line. -/
theorem oneLineBody_runs_on :
    ∃ parse, oneLineBody.parse? = some parse ∧ parse.hasErrors = false ∧
      Insertion.plan (.ofParse oneLineBody.text parse) [.cursor 9] = .ok [edit bodyLog] ∧
      applyAll oneLineBody.text [bodyLog] = .ok ("function f() \x7b\n".toList ++
        logStatement ['f'] none ++ " return; \x7d\n".toList) ∧
      Text.endsCall " return; \x7d\n".toList = false := by
  obtain ⟨parse, hparse, -, hplan⟩ := oneLineBody_planned
  have herrors : parse.hasErrors = false := by
    obtain ⟨root, -, rfl⟩ := Option.map_eq_some_iff.mp hparse
    rfl
  refine ⟨parse, hparse, herrors, hplan, ?_, by decide⟩
  rw [applyAll_singleton]
  rfl

end Insertion
end LogProbe
