import LogProbe.Log.Plan
import LogProbe.Log.Removal

/-! The commands on a document, as requests to the editor that holds it. A command reads the
document once; all its offsets refer to the text that it read. -/
namespace LogProbe

inductive Request where
  | batch (edits : List Edit)
  | snippet (snippet : Snippet) (site : Selection)
  | format
  /-- A request that cannot be written down. -/
  | refuse (failure : Failure)
  deriving DecidableEq, Repr

/-- Requests, and what the command reports when all of them succeed. -/
structure Command (α : Type) where
  requests : List Request
  report : α

namespace Command

variable {σ ω α : Type}

/-- A step of its own: where it fails, all is as before. -/
def attempt (step : σ → Except Failure σ) (s : σ) : σ × Option Failure :=
  match step s with
  | .ok s => (s, none)
  | .error failure => (s, some failure)

/-- Performs requests up to the first that fails. -/
def performAll (perform : Request → σ → σ × Option Failure) : List Request → σ → σ × Option Failure
  | [], s => (s, none)
  | r :: rest, s =>
    match perform r s with
    | (s, none) => performAll perform rest s
    | (s, some failure) => (s, some failure)

/-- Runs a command. What was done before a failure stays done. -/
def run (perform : Request → σ → σ × Option Failure) (command : Except Failure (Command α))
    (s : σ) :
    σ × Except Failure α :=
  match command with
  | .error failure => (s, .error failure)
  | .ok command =>
    match performAll perform command.requests s with
    | (s, none) => (s, .ok command.report)
    | (s, some failure) => (s, .error failure)

/-- Runs a command that counts on one document after another, within what they share, and adds up
the counts. -/
def runOnAll (run : ω × σ → (ω × σ) × Except Failure Nat) :
    ω → List σ → (ω × List σ) × Except Failure Nat
  | w, [] => ((w, []), .ok 0)
  | w, s :: rest =>
    match run (w, s) with
    | ((w, s), .error failure) => ((w, s :: rest), .error failure)
    | ((w, s), .ok n) =>
      let ((w, rest), total) := runOnAll run w rest
      ((w, s :: rest), total.map (n + ·))

end Command

/-- A document as a command reads it. -/
structure Reading where
  languageId : String
  text : Text
  selections : List Selection
  indent : Indent
  deriving DecidableEq, Repr

structure InsertReport where
  edits : Nat := 0
  snippets : Nat := 0
  skipped : Nat := 0
  deriving DecidableEq, Repr

namespace Reading

def flush (edits : List Edit) : List Request := if edits.isEmpty then [] else [.batch edits]

/-- The requests for a plan. Edits wait for each other, to be applied as one batch; before a
snippet those go ahead that it would move, and the rest waits on. -/
def schedule (r : Reading) : List Edit → List Insertion → List Request
  | pending, [] => flush pending
  | pending, .edit e :: rest =>
    match r.indent.reindentEdit? r.text e with
    | some e => schedule r (pending ++ [e]) rest
    | none => [.refuse .badCut]
  | pending, .snippet site snippet :: rest =>
    let (ready, waiting) := pending.partition (site.start ≤ ·.start)
    flush ready ++ .snippet snippet site :: schedule r waiting rest

/-- Inserts a log for every selection and then has the document formatted, if it changed. -/
def insertLogs (parser : Parser) (r : Reading) : Except Failure (Command InsertReport) :=
  match parser.document? r.languageId r.text with
  | .error failure => .error failure
  | .ok none => .ok ⟨[], {}⟩
  | .ok (some tree) => do
    let plan ← Insertion.plan tree r.selections
    let format := if plan.isEmpty then [] else [.format]
    let snippets := plan.countP (·.isSnippet)
    return ⟨schedule r [] plan ++ format,
      { edits := plan.length - snippets, snippets, skipped := r.selections.length - plan.length }⟩

/-- Removes every log as one batch and reports how many there were. -/
def removeLogs (parser : Parser) (r : Reading) : Except Failure (Command Nat) :=
  match parser.document? r.languageId r.text with
  | .error failure => .error failure
  | .ok none => .ok ⟨[], 0⟩
  | .ok (some tree) => do
    let edits ← orBadCut (Removal.plan? tree)
    return ⟨if edits.isEmpty then [] else [.batch edits, .format], edits.length⟩

end Reading
end LogProbe
