import LogProbe.Proofs.Editor.Run
import LogProbe.Proofs.Log.Removal

/-! The removal of the logs of a document. Its edits go from the bottom up and stay apart, so the
editor accepts them as one batch, and the report counts the logs that no other one holds. -/
namespace LogProbe
namespace Editor
open Edit

/-- With a plan that is accepted the removal is done, and reports as many logs as edits. -/
theorem removeLogs_of_plan {parser : Parser} {e : Editor} {tree : Tree} {edits : List Edit}
    {t : Text} (htree : parser.document? e.languageId e.text = .ok (some tree))
    (hplan : Removal.plan? tree = some edits) (ht : applyAll e.text edits = .ok t) :
    e.removeLogs parser =
      (if edits.isEmpty then e
        else { e with text := t, batches := e.batches + 1, formats := e.formats + 1 },
        .ok edits.length) := by
  have hcommand : e.reading.removeLogs parser =
      .ok ⟨if edits.isEmpty then [] else [.batch edits, .format], edits.length⟩ := by
    rw [Reading.removeLogs, reading, htree]
    simp only [hplan]
    rfl
  rw [removeLogs, hcommand]
  cases edits with
  | nil => rfl
  | cons x edits =>
    simp only [List.isEmpty_cons, Bool.false_eq_true, if_false, Command.run, Command.performAll,
      perform, Command.attempt, applyBatch, ht]
    rfl

/-- Where the nodes of a text nest and name their siblings, the edits that remove its logs start
strictly one above the other, each ending at or above the start of the one planned before it. The
batch is accepted, and an editor that holds the text reports success and the number of the log
calls that are in no other one. -/
theorem removeLogs_counts_outermost (source : Text) (parse : Parse)
    (hnested : parse.root.nested source = true) (hplain : parse.root.plainSiblings = true)
    (hsingle : (Tree.ofParse source parse).SingleExpressions)
    (htrimmed : (Tree.ofParse source parse).LogsTrimmed) :
    ∃ edits t, Removal.plan? (.ofParse source parse) = some edits ∧
      (edits.Pairwise fun x e => e.start < x.start ∧ e.stop ≤ x.start) ∧
      applyAll source edits = .ok t ∧
      edits.length = (Tree.ofParse source parse).places.countP (·.isOutermostLog source) ∧
      ∀ (parser : Parser) (e : Editor), e.text = source →
        parser.document? e.languageId source = .ok (some (.ofParse source parse)) →
        e.removeLogs parser =
          (if edits.isEmpty then e
            else { e with text := t, batches := e.batches + 1, formats := e.formats + 1 },
            .ok ((Tree.ofParse source parse).places.countP (·.isOutermostLog source))) := by
  have h := Tree.logsApart_ofParse hnested hplain hsingle htrimmed
  obtain ⟨edits, t, hedits, hwidens, hdescending, ht, -⟩ := Removal.exists_removed h
  have hcount : edits.length =
      (Tree.ofParse source parse).places.countP (·.isOutermostLog source) := by
    calc edits.length
        = edits.reverse.length := List.length_reverse.symm
      _ = ((Tree.ofParse source parse).logCalls.map Removal.bareEdit).length :=
          hwidens.length_eq.symm
      _ = (Tree.ofParse source parse).logCalls.length := List.length_map _
      _ = _ := Tree.length_logCalls _
  refine ⟨edits, t, hedits, hdescending, ht, hcount, ?_⟩
  rintro parser e rfl htree
  rw [removeLogs_of_plan htree hedits ht, hcount]

/-- An editor that holds the three logs. -/
def threeLogsEditor : Editor where
  languageId := "javascript"
  text := Removal.threeLogs.text
  batches := 4

theorem threeLogs_removed :
    ∃ t, threeLogsEditor.removeLogs (.ofTables [Removal.threeLogs]) =
      ({ threeLogsEditor with text := t, batches := 5, formats := 1 }, .ok 3) := by
  obtain ⟨parse, hparse, hnested, hplain, hsingle, htrimmed, hbare⟩ := Removal.threeLogs_parse
  obtain ⟨edits, t, -, -, -, hlength, hremoved⟩ :=
    removeLogs_counts_outermost Removal.threeLogs.text parse hnested hplain hsingle htrimmed
  have hparser : Parser.ofTables [Removal.threeLogs] .javascript Removal.threeLogs.text =
      .ok (some parse) := by
    rw [Parser.ofTables, List.find?_cons_of_pos (by simp [Removal.threeLogs])]
    exact congrArg Except.ok hparse
  have hresult := hremoved (.ofTables [Removal.threeLogs]) threeLogsEditor rfl
    (Parser.document?_eq (Dialect.ofLanguageId?_languageId .js) hparser)
  have hcount : (Tree.ofParse Removal.threeLogs.text parse).places.countP
      (·.isOutermostLog Removal.threeLogs.text) = 3 := by
    calc _ = (Tree.ofParse Removal.threeLogs.text parse).logCalls.length :=
          (Tree.length_logCalls _).symm
      _ = ((Tree.ofParse Removal.threeLogs.text parse).logCalls.map Removal.bareEdit).length :=
          List.length_map _ |>.symm
      _ = 3 := by rw [hbare]; rfl
  have hsome : edits.isEmpty = false := by
    rw [hcount] at hlength
    cases edits with
    | nil => cases hlength
    | cons => rfl
  rw [hcount, hsome] at hresult
  exact ⟨t, hresult⟩

end Editor
end LogProbe
