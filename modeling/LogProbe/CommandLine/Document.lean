import LogProbe.CommandLine.Formatter
import LogProbe.Editor.Basic

/-! Files that are edited in memory. -/
namespace LogProbe

/-- A file in an editor, with the text that was read from the file. -/
structure Document where
  path : Bytes
  stored : Text
  editor : Editor
  deriving DecidableEq, Repr

namespace Document

/-- The language of files that are no scripts. Commands leave them alone. -/
def plainLanguage : String := "plaintext"

def languageOf (settings : Settings) (path : Bytes) : String :=
  settings.language.getD (((Dialect.ofPath? path).map Dialect.languageId).getD plainLanguage)

def ofText (settings : Settings) (path : Bytes) (text : Text) : Document where
  path := path
  stored := text
  editor := { languageId := languageOf settings path, text, indent := settings.indent }

def text (d : Document) : Text := d.editor.text

def isChanged (d : Document) : Bool := d.text != d.stored

def extension (d : Document) : Text := ((Path.extension? d.path).bind Bytes.text?).getD ['j', 's']

/-- Performs a request on a document. Formatting goes to the formatter, if there is one; all else to
the editor. -/
def perform (launcher : Launcher) (formatter : Option FormatterCall) (request : Request) :
    World × Document → (World × Document) × Option Failure
  | (w, d) =>
    match request, formatter with
    | .format, some call =>
      match call.format launcher w d.extension d.text with
      | (w, .ok text) => ((w, { d with editor := { d.editor with text } }), none)
      | (w, .error failure) => ((w, d), some failure)
    | request, _ =>
      let (editor, failure) := Editor.perform request d.editor
      ((w, { d with editor }), failure)

def insertLogs (parser : Parser) (launcher : Launcher) (formatter : Option FormatterCall) :
    World × Document → (World × Document) × Except Failure InsertReport
  | (w, d) =>
    Command.run (perform launcher formatter) (d.editor.reading.insertLogs parser) (w, d)

def removeLogs (parser : Parser) (launcher : Launcher) (formatter : Option FormatterCall) :
    World × Document → (World × Document) × Except Failure Nat
  | (w, d) =>
    Command.run (perform launcher formatter) (d.editor.reading.removeLogs parser) (w, d)

end Document
end LogProbe
