import LogProbe.CommandLine.Arguments
import LogProbe.CommandLine.FileTree

/-! External formatters. A formatter is a program that is run on a file with the text and changes
the file in place. -/
namespace LogProbe

/-- How a program ended. -/
inductive Exit where
  | code (status : Nat)
  | signal (number : Nat)
  deriving DecidableEq, Repr

namespace Exit

def isSuccess (e : Exit) : Bool := e == code 0

/-- The signals by name, in the order of their numbers, which start at one. -/
def signalNames : List String :=
  ["HUP", "INT", "QUIT", "ILL", "TRAP", "ABRT", "BUS", "FPE", "KILL", "USR1", "SEGV", "USR2",
    "PIPE", "ALRM", "TERM", "STKFLT", "CHLD", "CONT", "STOP", "TSTP", "TTIN", "TTOU", "URG",
    "XCPU", "XFSZ", "VTALRM", "PROF", "WINCH", "IO", "PWR", "SYS"]

def signalName? (number : Nat) : Option String :=
  if number = 0 then none else signalNames[number - 1]?

def shown : Exit → Text
  | code n => "exit status: ".toList ++ Numeral.ofNat n
  | signal n =>
    "signal: ".toList ++ Numeral.ofNat n ++
      match signalName? n with
      | some name => " (SIG".toList ++ name.toList ++ [')']
      | none => []

end Exit

/-- What a run meets: the disk, and how many formatters it has asked for so far. What a system does
is no function of what it is asked: it may answer otherwise at every turn. -/
structure World where
  disk : Disk
  turn : Nat

/-- The time in nanoseconds for which a run sleeps between two looks at a formatter. -/
def pollInterval : Nat := 10000000

/-- A program that is started: with what arguments, on which file, in the last of them, and with
what in it. -/
structure Launch where
  program : Text
  arguments : List Bytes
  path : Bytes
  content : Text

/-- A program that was started, as a run finds it that looks at it every now and then. -/
structure Child where
  /-- What a look finds: that the program goes on, or its end. -/
  look : Nat → Except FileError (Option Exit)
  /-- The time that has passed since the start when the look has found the program going on. -/
  elapsed : Nat → Nat
  slept : ∀ k, k * pollInterval ≤ elapsed k
  complaint : Bytes
  /-- What is in the file in the end. -/
  content : Except FileError Bytes
  /-- The disk in the end, without that file. -/
  disk : Disk

/-- What a system does to have a formatter run: it makes a file with a fresh name that starts and
ends as told, puts a text into it and starts a program. -/
structure Launcher where
  makeFile : World → Text → Text → Except FileError Bytes
  fill : World → Bytes → Text → Except FileError Unit
  start : World → Launch → Except FileError Child

namespace FormatterCall

/-- The start of the name of every file that a formatter is run on. -/
def fileNameStart : Text := "loghaste-".toList

def failed (cause : Text) : Failure := .formatter cause

def named (call : FormatterCall) : Text := "formatter ".toList ++ call.program

/-- The path of a file with a text, and the formatter that was started on it. -/
def launch (l : Launcher) (call : FormatterCall) (w : World) (extension text : Text) :
    Except Failure (Bytes × Child) := do
  let path ← (l.makeFile w fileNameStart ('.' :: extension)).mapError (failed ·.message)
  (l.fill w path text).mapError (failed ·.message)
  let arguments := call.arguments.map Bytes.ofText ++ [path]
  let child ← (l.start w ⟨call.program, arguments, path, text⟩).mapError fun e =>
    failed ("failed to spawn ".toList ++ call.named ++ ": ".toList ++ e.message)
  return (path, child)

/-- What a formatter that ended has made of the text. A complaint that is no text is not shown. -/
def result (call : FormatterCall) (path : Bytes) (child : Child) (exit : Exit) :
    Except Failure Text :=
  if !exit.isSuccess then
    .error (failed (call.named ++ " exited with ".toList ++ exit.shown ++ ": ".toList ++
      (child.complaint.text?.getD []).trim))
  else
    match child.content.bind fun b => (b.text?.map Except.ok).getD (.error .notText) with
    | .ok text => .ok text
    | .error e =>
      .error (failed ("failed to read back ".toList ++ path.shown ++ ": ".toList ++ e.message))

/-- Looks at a formatter until it has ended or its time is over. Each sleep brings the timeout
closer. -/
def watch (call : FormatterCall) (path : Bytes) (child : Child) (k : Nat) :
    Except Failure Text :=
  match child.look k with
  | .error e => .error (failed e.message)
  | .ok (some exit) => result call path child exit
  | .ok none =>
    if call.timeout.totalNanos ≤ child.elapsed k then
      .error (failed (call.named ++ " timed out after ".toList ++ call.timeout.shown))
    else watch call path child (k + 1)
termination_by call.timeout.totalNanos - k * pollInterval
decreasing_by
  have hslept := child.slept k
  have hpositive : 0 < pollInterval := by decide
  rw [Nat.succ_mul]
  omega

/-- Runs a formatter and gives the formatted text or what went wrong. -/
def format (l : Launcher) (call : FormatterCall) (w : World) (extension text : Text) :
    World × Except Failure Text :=
  match launch l call w extension text with
  | .error failure => ({ w with turn := w.turn + 1 }, .error failure)
  | .ok (path, child) => (⟨child.disk, w.turn + 1⟩, watch call path child 0)

end FormatterCall
end LogProbe
