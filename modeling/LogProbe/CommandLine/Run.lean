import LogProbe.CommandLine.Document
import LogProbe.CommandLine.Printed

/-! Runs of the program: what it prints, what it writes and how it ends. -/
namespace LogProbe

/-- What can be done with the content of a file. -/
inductive Access where
  | read
  | write
  deriving DecidableEq, Repr

/-- What surrounds a run. -/
structure Surroundings where
  disk : Disk
  /-- Why a file at a path is not to be read or written, if so. -/
  denial : Access → Bytes → Option FileError
  parser : Parser
  launcher : Launcher

namespace Surroundings

def read (s : Surroundings) (path : Bytes) : Except FileError Text :=
  match s.denial .read path with
  | some e => .error e
  | none => s.disk.read path

/-- Writes to what the disk has become in the run. -/
def write (s : Surroundings) (disk : Disk) (path : Bytes) (text : Text) : Except FileError Disk :=
  match s.denial .write path with
  | some e => .error e
  | none => disk.write path text

end Surroundings

inductive RunError where
  | noSuchPath (path : Bytes)
  | unreadable (path : Bytes) (cause : FileError)
  | unwritable (path : Bytes) (cause : FileError)
  | notInserted (path : Bytes) (cause : Text) (deeper : Option Text)
  | failed (message : Text) (cause : Option Text)
  deriving DecidableEq, Repr

namespace RunError

def summary : RunError → Text
  | noSuchPath path => "no such file or directory: ".toList ++ path.shown
  | unreadable path _ => "failed to read ".toList ++ path.shown
  | unwritable path _ => "failed to write ".toList ++ path.shown
  | notInserted path _ _ => "failed to insert into ".toList ++ path.shown
  | failed message _ => message

def causes : RunError → List Text
  | noSuchPath _ => []
  | unreadable _ cause => [cause.message]
  | unwritable _ cause => [cause.message]
  | notInserted _ cause deeper => cause :: deeper.toList
  | failed _ cause => cause.toList

/-- The lines of a cause, indented below `opening`, with which the first one starts. -/
def indented (opening : Text) (cause : Text) : Text :=
  let (first, rest) := cause.split '\n'
  '\n' :: opening ++ first ++ rest.flatMap ('\n' :: List.replicate opening.length ' ' ++ ·)

/-- The report of an error: its summary, and below it the causes, numbered if there are several. -/
def report (e : RunError) : Text :=
  let reason :=
    match e.causes with
    | [] => []
    | [cause] => "\n\nCaused by:".toList ++ indented "    ".toList cause
    | causes =>
      "\n\nCaused by:".toList ++ causes.zipIdx.flatMap fun (cause, number) =>
        indented ("    ".toList ++ Numeral.ofNat number ++ ": ".toList) cause
  "Error: ".toList ++ e.summary ++ reason ++ ['\n']

end RunError

/-- How a run ends, if it ends. -/
inductive Ending where
  | exit (code : Nat)
  | crash
  | endless
  deriving DecidableEq, Repr

/-- What a run prints on both streams, what it saves under which paths, and the disk as it leaves
it. -/
structure Outcome where
  ending : Ending := .exit 0
  output : Text := []
  messages : Text := []
  saved : List (Bytes × Text) := []
  disk : Disk

namespace Outcome

def fail (e : RunError) (o : Outcome) : Outcome :=
  { o with ending := .exit 1, messages := o.messages ++ e.report }

/-- A failure of a command ends in an error, which `e` makes of the message and a deeper cause. A
command that breaks down or does not end says nothing. -/
def ofFailure (disk : Disk) (e : Text → Option Text → RunError) (failure : Failure) : Outcome :=
  match failure.message? with
  | some message => fail (e message.toList failure.cause?) { disk }
  | none => { ending := if failure = .endless then .endless else .crash, disk }

end Outcome

namespace Run

/-- Saves documents one after the other, up to the first that cannot be saved. -/
def saveAll (s : Surroundings) : Outcome → List Document → Outcome
  | o, [] => o
  | o, d :: rest =>
    match s.write o.disk d.path d.text with
    | .ok disk => saveAll s { o with saved := o.saved ++ [(d.path, d.text)], disk } rest
    | .error cause => o.fail (.unwritable d.path cause)

/-- Saves the changed documents, or prints them. One document alone is printed without a
heading. -/
def emit (s : Surroundings) (documents : List Document) (write : Bool) (o : Outcome) : Outcome :=
  let changed := documents.filter (·.isChanged)
  if write then saveAll s o changed
  else
    let headed (d : Document) : Text :=
      "==> ".toList ++ d.path.shown ++ " <==\n".toList ++ d.text
    match documents with
    | [_] => { o with output := changed.flatMap (·.text) }
    | _ => { o with output := changed.flatMap headed }

def openFile (s : Surroundings) (settings : Settings) (path : Bytes) : Except RunError Document :=
  match s.read path with
  | .ok text => .ok (Document.ofText settings path text)
  | .error cause => .error (.unreadable path cause)

/-- The plan of an insertion, empty for what is no script. -/
def insertionPlan (parser : Parser) (d : Document) : Except Failure (List Insertion) := do
  match ← parser.document? d.editor.languageId d.text with
  | some tree => Insertion.plan tree d.editor.selections
  | none => .ok []

def removalPlan (parser : Parser) (d : Document) : Except Failure (List Edit) := do
  match ← parser.document? d.editor.languageId d.text with
  | some tree => orBadCut (Removal.plan? tree)
  | none => .ok []

def insertReport (path : Bytes) (r : InsertReport) : Text :=
  path.shown ++ ": ".toList ++ Numeral.ofNat r.edits ++ " inserted, ".toList ++
    Numeral.ofNat r.snippets ++ " snippets, ".toList ++ Numeral.ofNat r.skipped ++
    " skipped\n".toList

/-- Inserts logs into a file and formats it, or prints the plan. -/
def insert (s : Surroundings) (path : Bytes) (spans : List PositionSpan) (settings : Settings) :
    Outcome :=
  match openFile s settings path with
  | .error e => .fail e { disk := s.disk }
  | .ok d =>
    let selections := spans.map (·.selectionIn d.text)
    let d := { d with editor := { d.editor with selections } }
    if settings.dryRun then
      match insertionPlan s.parser d with
      | .ok plan => { output := Printed.insertions plan ++ ['\n'], disk := s.disk }
      | .error failure => .ofFailure s.disk .failed failure
    else
      match Document.insertLogs s.parser s.launcher settings.formatter (⟨s.disk, 0⟩, d) with
      | ((w, d), .ok report) =>
        emit s [d] settings.write { messages := insertReport path report, disk := w.disk }
      | ((w, _), .error failure) => .ofFailure w.disk (.notInserted path) failure

/-- The documents that paths stand for. All of them are read before any is changed. -/
def openAll (s : Surroundings) (paths : List Bytes) (settings : Settings) :
    Except RunError (List Document) := do
  let files ← (s.disk.collect paths).mapError .noSuchPath
  files.mapM (openFile s settings)

def removalReport (removed files : Nat) : Text :=
  Numeral.ofNat removed ++ " removed across ".toList ++ Numeral.ofNat files ++ " files\n".toList

/-- Removes all logs from files and formats those, or prints the plans. Plans of files whose paths
are shown alike have one place in the print. -/
def delete (s : Surroundings) (paths : List Bytes) (settings : Settings) : Outcome :=
  match openAll s paths settings with
  | .error e => .fail e { disk := s.disk }
  | .ok documents =>
    if settings.dryRun then
      match documents.mapM fun d => do return (d.path.shown, ← removalPlan s.parser d) with
      | .ok plans =>
        { output := Printed.editsByPath (Printed.mapOf plans) ++ ['\n'], disk := s.disk }
      | .error failure => .ofFailure s.disk .failed failure
    else
      let remove := Document.removeLogs s.parser s.launcher settings.formatter
      match Command.runOnAll remove ⟨s.disk, 0⟩ documents with
      | ((w, documents), .ok removed) =>
        emit s documents settings.write
          { messages := removalReport removed documents.length, disk := w.disk }
      | ((w, _), .error failure) => .ofFailure w.disk .failed failure

def perform (s : Surroundings) : Invocation → Outcome
  | .insert path spans settings => insert s path spans settings
  | .delete paths settings => delete s paths settings

end Run

/-- Runs the program, unless its arguments are no invocation. -/
def runProgram (s : Surroundings) (arguments : List Bytes) : Except Usage Outcome := do
  return Run.perform s (← Arguments.parse arguments)

end LogProbe
