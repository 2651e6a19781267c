import LogProbe.Editor.Request

/-! An editor that holds one document in memory and counts what is asked of it. -/
namespace LogProbe

structure Editor where
  languageId : String
  text : Text
  selections : List Selection := []
  indent : Indent := {}
  /-- Where snippets left the cursor. -/
  cursors : List Nat := []
  batches : Nat := 0
  formats : Nat := 0
  deriving DecidableEq, Repr

namespace Editor

def reading (e : Editor) : Reading := ⟨e.languageId, e.text, e.selections, e.indent⟩

def applyBatch (edits : List Edit) (e : Editor) : Except Failure Editor := do
  let text ← Edit.applyAll e.text edits
  return { e with text, batches := e.batches + 1 }

/-- Puts a snippet in the place of a selection and records its first tab stop. -/
def insertSnippet (snippet : Snippet) (site : Selection) (e : Editor) : Except Failure Editor := do
  let text ← Edit.applyAll e.text [⟨site.start, site.stop, snippet.plainText⟩]
  let cursors := e.cursors ++ (snippet.firstStop?.map (site.start + ·)).toList
  return { e with text, cursors }

def format (e : Editor) : Editor := { e with formats := e.formats + 1 }

def perform : Request → Editor → Editor × Option Failure
  | .batch edits, e => Command.attempt (applyBatch edits) e
  | .snippet snippet site, e => Command.attempt (insertSnippet snippet site) e
  | .format, e => (e.format, none)
  | .refuse failure, e => (e, some failure)

def insertLogs (parser : Parser) (e : Editor) : Editor × Except Failure InsertReport :=
  Command.run perform (e.reading.insertLogs parser) e

def removeLogs (parser : Parser) (e : Editor) : Editor × Except Failure Nat :=
  Command.run perform (e.reading.removeLogs parser) e

def removeLogsInAll (parser : Parser) (editors : List Editor) : List Editor × Except Failure Nat :=
  let remove : Unit × Editor → (Unit × Editor) × Except Failure Nat := fun (_, e) =>
    (e.removeLogs parser).map (Prod.mk ()) id
  (Command.runOnAll remove () editors).map Prod.snd id

end Editor
end LogProbe
