import LogProbe.CommandLine.Duration
import LogProbe.CommandLine.Position
import LogProbe.Edit.Indent
import LogProbe.Text.Utf8

/-! The arguments of the command line: options and operands, and the two commands made of them.
Arguments are bytes. Operands are paths and stay bytes; all else has to be text. -/
namespace LogProbe

/-- How a formatter is started. -/
structure FormatterCall where
  program : Text
  arguments : List Text
  timeout : Duration
  deriving DecidableEq, Repr

structure Settings where
  write : Bool
  dryRun : Bool
  indent : Indent
  language : Option String
  formatter : Option FormatterCall
  deriving DecidableEq, Repr

inductive Invocation where
  | insert (file : Bytes) (spans : List PositionSpan) (settings : Settings)
  | delete (paths : List Bytes) (settings : Settings)
  deriving DecidableEq, Repr

/-- Why arguments are no invocation: they ask for something else, or they are wrong. -/
inductive Usage where
  | help
  | version
  | wrong
  deriving DecidableEq, Repr

namespace Arguments

inductive Verb where
  | insert
  | delete
  deriving DecidableEq, Repr

inductive Flag where
  | write
  | dryRun
  | useTabs
  deriving DecidableEq, Repr

/-- Options that take a value. -/
inductive Setting where
  | position
  | tabSize
  | language
  | formatCmd
  | formatArg
  | formatTimeout
  deriving DecidableEq, Repr

/-- Whether a value may look like an option. -/
def Setting.takesAnything (s : Setting) : Bool := s == formatArg

/-- What the arguments read so far have settled. -/
structure Draft where
  operands : List Bytes := []
  spans : List PositionSpan := []
  write : Bool := false
  dryRun : Bool := false
  useTabs : Bool := false
  tabSize : Option Nat := none
  language : Option String := none
  formatCmd : Option Text := none
  formatArgs : List Text := []
  formatTimeout : Option Duration := none
  deriving DecidableEq, Repr

namespace Draft

/-- Insertion takes one file, and no path is empty. -/
def addOperand? (verb : Verb) (d : Draft) (path : Bytes) : Option Draft :=
  if path.isEmpty || (verb == .insert && !d.operands.isEmpty) then none
  else some { d with operands := d.operands ++ [path] }

/-- No flag is given twice. -/
def addFlag? (d : Draft) : Flag → Option Draft
  | .write => if d.write then none else some { d with write := true }
  | .dryRun => if d.dryRun then none else some { d with dryRun := true }
  | .useTabs => if d.useTabs then none else some { d with useTabs := true }

/-- Fills what can be filled once. -/
def fill? {α : Type} (slot value : Option α) : Option (Option α) :=
  if slot.isSome then none else value.map some

def addText? (d : Draft) (setting : Setting) (t : Text) : Option Draft :=
  match setting with
  | .position => do return { d with spans := d.spans ++ [← (PositionSpan.parse t).toOption] }
  | .tabSize => do return { d with tabSize := ← fill? d.tabSize (Numeral.parse t).toOption }
  | .language => do return { d with language := ← fill? d.language (some (String.ofList t)) }
  | .formatCmd => do return { d with formatCmd := ← fill? d.formatCmd (some t) }
  | .formatArg => some { d with formatArgs := d.formatArgs ++ [t] }
  | .formatTimeout => do
    return { d with formatTimeout := ← fill? d.formatTimeout (Duration.parse? t) }

def addValue? (d : Draft) (setting : Setting) (value : Bytes) : Option Draft :=
  value.text?.bind (d.addText? setting)

def defaultTimeout : Duration := ⟨10, 0⟩

/-- The settings of a finished draft. Nothing is written in a dry run. -/
def settings? (d : Draft) : Option Settings :=
  if d.write && d.dryRun then none
  else
    some {
      write := d.write, dryRun := d.dryRun
      indent := { spaces := !d.useTabs, width := d.tabSize.getD 4 }
      language := d.language
      formatter := d.formatCmd.map fun program =>
        { program, arguments := d.formatArgs, timeout := d.formatTimeout.getD defaultTimeout } }

def invocation? (d : Draft) : Verb → Option Invocation
  | .insert => do
    let settings ← d.settings?
    match d.operands, d.spans with
    | [file], _ :: _ => return .insert file d.spans settings
    | _, _ => none
  | .delete => do
    let settings ← d.settings?
    if d.operands.isEmpty then none else return .delete d.operands settings

end Draft

def flagNames : List (String × Flag) :=
  [("write", .write), ("dry-run", .dryRun), ("use-tabs", .useTabs)]

def settingNames (verb : Verb) : List (String × Setting) :=
  (if verb == .insert then [("at", .position)] else []) ++
    [("tab-size", .tabSize), ("language", .language), ("format-cmd", .formatCmd),
      ("format-arg", .formatArg), ("format-timeout", .formatTimeout)]

def dash : UInt8 := 0x2D

def equals : UInt8 := 0x3D

/-- Whether an argument is an option or starts the operands. A dash alone is an operand. -/
def looksLikeOption : Bytes → Bool
  | b :: _ :: _ => b == dash
  | _ => false

/-- What an argument with two dashes in front says. -/
inductive Long where
  | flag (flag : Flag)
  | setting (setting : Setting) (value : Option Bytes)
  | help
  | unknown

/-- Reads what follows the two dashes: a name, and a value behind the first equals sign. -/
def longOf (verb : Verb) (b : Bytes) : Long :=
  let (name, value) := b.span (· != equals)
  let value := if value.isEmpty then none else some value.tail
  match (Bytes.text? name).map String.ofList with
  | none => .unknown
  | some name =>
    match (settingNames verb).lookup name, flagNames.lookup name, value with
    | some setting, _, value => .setting setting value
    | none, some flag, none => .flag flag
    | none, none, none => if name = "help" then .help else .unknown
    | none, _, some _ => .unknown

/-- Whether an argument starts with a dash and a letter. -/
def startsWithDash (letter : Char) (b : Bytes) : Bool :=
  (dash :: Bytes.ofText [letter]).isPrefixOf b

/-- Whether an argument with one dash asks for help: that letter counts when it is the first. -/
def asksHelp (b : Bytes) : Bool := startsWithDash 'h' b

def orWrong {α : Type} : Option α → Except Usage α
  | some a => .ok a
  | none => .error .wrong

/-- Reads the arguments of a command one after the other, so that the first fault or the first
cry for help decides. `awaiting` is the option whose value comes next. -/
def scan (verb : Verb) : Option Setting → Draft → List Bytes → Except Usage Draft
  | none, d, [] => .ok d
  | some _, _, [] => .error .wrong
  | some setting, d, b :: rest =>
    if looksLikeOption b && !setting.takesAnything then .error .wrong
    else do scan verb none (← orWrong (d.addValue? setting b)) rest
  | none, d, b :: rest =>
    if b = [dash, dash] then orWrong (rest.foldlM (Draft.addOperand? verb) d)
    else if [dash, dash].isPrefixOf b then
      match longOf verb (b.drop 2) with
      | .flag flag => do scan verb none (← orWrong (d.addFlag? flag)) rest
      | .setting setting (some value) => do
        scan verb none (← orWrong (d.addValue? setting value)) rest
      | .setting setting none => scan verb (some setting) d rest
      | .help => .error .help
      | .unknown => .error .wrong
    else if asksHelp b then .error .help
    else if looksLikeOption b then .error .wrong
    else do scan verb none (← orWrong (d.addOperand? verb b)) rest

def command (verb : Verb) (arguments : List Bytes) : Except Usage Invocation := do
  let draft ← scan verb none {} arguments
  orWrong (draft.invocation? verb)

/-- What an argument in place of a command asks for. -/
def request (b : Bytes) : Usage :=
  if b = Bytes.ofText "--help".toList || asksHelp b then .help
  else if b = Bytes.ofText "--version".toList || startsWithDash 'V' b then .version
  else .wrong

/-- What a request for help about the given topics comes to. -/
def helpAbout : List Bytes → Usage
  | [] => .help
  | [topic] =>
    if ["insert", "delete", "help"].any (Bytes.ofText ·.toList = topic) then .help else .wrong
  | _ => .wrong

/-- Reads the arguments of the program. The command comes first; help can be asked for about one
command. -/
def parse : List Bytes → Except Usage Invocation
  | [] => .error .wrong
  | first :: rest =>
    match first.text?.map String.ofList with
    | some "insert" => command .insert rest
    | some "delete" => command .delete rest
    | some "help" => .error (helpAbout rest)
    | _ => .error (request first)

end Arguments
end LogProbe
