import LogProbe.CommandLine.Run

/-! Written descriptions of what surrounds a run: a record per line for each file and directory
and for each parse of a text, with a record for each of its nodes below it. Paths start at the
directory of the run, which may be named first.

    here "/home/user"
    directory "out"
    file "a.js" "f();\n"
    binary "logo"
    parse javascript "f();\n" sound
    node - "program" named - 0 5
    node 0 "expression_statement" named - 0 4

A node names the row of its parent and its field, or a dash. At the end it may name its previous
sibling, by `after` and its end or by `first`. -/
namespace LogProbe

/-- A word of a record, as it stands or between quotes. -/
inductive Item where
  | bare (text : Text)
  | quoted (text : Text)
  deriving DecidableEq, Repr

namespace Item

/-- What is being read: the gap between items, or the characters of one, the last one first. -/
inductive Mode where
  | gap
  | bare (reversed : Text)
  | quoted (reversed : Text)

def hexValue (c : Char) : Nat :=
  if c.isDigit then c.toNat - '0'.toNat else (c.toLower.toNat + 10) - 'a'.toNat

/-- The character that a backslash and a letter stand for. -/
def escaped (c : Char) : Char :=
  match c with
  | 'n' => '\n'
  | 'r' => '\r'
  | 't' => '\t'
  | 'b' => '\x08'
  | 'f' => '\x0c'
  | c => c

def readFrom? : Mode → Text → Option (List Item)
  | .gap, [] => some []
  | .bare t, [] => some [.bare t.reverse]
  | .quoted _, [] => none
  | .gap, c :: t =>
    if c = ' ' then readFrom? .gap t
    else if c = '"' then readFrom? (.quoted []) t
    else readFrom? (.bare [c]) t
  | .bare own, c :: t =>
    if c = ' ' then (readFrom? .gap t).map (.bare own.reverse :: ·)
    else readFrom? (.bare (c :: own)) t
  | .quoted own, '\\' :: 'u' :: '0' :: '0' :: a :: b :: t =>
    readFrom? (.quoted (Char.ofNat (16 * hexValue a + hexValue b) :: own)) t
  | .quoted own, '\\' :: c :: t => readFrom? (.quoted (escaped c :: own)) t
  | .quoted own, c :: t =>
    if c = '"' then (readFrom? .gap t).map (.quoted own.reverse :: ·)
    else readFrom? (.quoted (c :: own)) t

def readAll? (line : Text) : Option (List Item) := readFrom? .gap line

def word? : Item → Option String
  | bare t => some (String.ofList t)
  | quoted _ => none

def string? : Item → Option Text
  | bare _ => none
  | quoted t => some t

def number? : Item → Option Nat
  | bare t => (Numeral.parse t).toOption
  | quoted _ => none

/-- An item that a dash may stand for the absence of. -/
def optional? {α : Type} (read : Item → Option α) (i : Item) : Option (Option α) :=
  if i = bare ['-'] then some none else (read i).map some

end Item

namespace Entry

/-- Adds an entry below the directories with the given names, which are made where missing. -/
def addBelow (new : Entry) : List Bytes → List Entry → List Entry
  | [], entries => if entries.any (·.name == new.name) then entries else entries ++ [new]
  | parent :: path, entries =>
    let inside := entries.findSome? fun
      | directory name inner => if name == parent then some inner else none
      | file _ _ => none
    let grown := directory parent (addBelow new path (inside.getD []))
    if inside.isSome then entries.map fun e => if e.name == parent then grown else e
    else entries ++ [grown]

end Entry

namespace Disk

def empty : Disk := ⟨.directory [] [], []⟩

/-- The disk with one more entry at the end of a path, which `make` makes from its name. -/
def add (d : Disk) (path : Text) (make : Bytes → Entry) : Disk :=
  let path := Bytes.ofText path
  let names := d.start path ++ (path.splitOn Path.slash).filter (!·.isEmpty)
  match d.root, names.getLast? with
  | .directory own entries, some name =>
    { d with root := .directory own (Entry.addBelow (make name) names.dropLast entries) }
  | _, _ => d

/-- The disk with the directory of the run at the end of a path from the outermost one. -/
def enter (d : Disk) (path : Text) : Disk :=
  { d.add path (.directory · []) with
    here := ((Bytes.ofText path).splitOn Path.slash).filter (!·.isEmpty) }

end Disk

/-- The files and the parses of a description. The table under way is the first one. -/
structure Workspace where
  disk : Disk := .empty
  tables : List ParseTable := []

namespace Workspace

/-- The previous sibling of a node, where it is named. -/
def previous? : List Item → Option (Option (Option Nat))
  | [] => some none
  | [i] => if i.word? = some "first" then some (some none) else none
  | [i, stop] =>
    if i.word? = some "after" then stop.number?.map fun n => some (some n) else none
  | _ => none

def row? : List Item → Option Row
  | parent :: kind :: named :: field :: start :: stop :: previous => do
    let named ← match ← named.word? with
      | "named" => some true
      | "anonymous" => some false
      | _ => none
    let token : Token := {
      kind := String.ofList (← kind.string?)
      named
      field := (← field.optional? Item.string?).map String.ofList
      start := ← start.number?
      stop := ← stop.number?
      previous := ← previous? previous }
    return { parent := ← parent.optional? Item.number?, token }
  | _ => none

def table? : List Item → Option ParseTable
  | [grammar, text, state] => do
    let hasErrors ← match ← state.word? with
      | "sound" => some false
      | "flawed" => some true
      | _ => none
    return {
      grammar := ← Grammar.ofName? (← grammar.word?)
      text := ← text.string?
      hasErrors
      rows := [] }
  | _ => none

/-- Adds what one record describes. A node goes to the last table. -/
def add? (w : Workspace) : List Item → Option Workspace
  | [] => some w
  | name :: items => do
    match ← name.word?, items, w.tables with
    | "here", [path], _ => return { w with disk := w.disk.enter (← path.string?) }
    | "directory", [path], _ =>
      return { w with disk := w.disk.add (← path.string?) (.directory · []) }
    | "file", [path, content], _ =>
      let content ← content.string?
      return { w with disk := w.disk.add (← path.string?) (.file · (Bytes.ofText content)) }
    | "binary", [path], _ => return { w with disk := w.disk.add (← path.string?) (.file · [0xFF]) }
    | "parse", items, tables => return { w with tables := (← table? items) :: tables }
    | "node", items, table :: tables =>
      let row ← row? items
      return { w with tables := { table with rows := table.rows ++ [row] } :: tables }
    | _, _, _ => none

/-- Reads a description, or finds the number of the first line that is no record. -/
def parse (t : Text) : Except Nat Workspace :=
  let (first, rest) := t.split '\n'
  ((first :: rest).zipIdx 1).foldlM (fun w (line, number) =>
    match (Item.readAll? line).bind w.add? with
    | some w => .ok w
    | none => .error number) {}

/-- What starts no program at all. -/
def idle : Launcher where
  makeFile _ first last := .ok (Bytes.ofText ("/tmp/".toList ++ first ++ last))
  fill _ _ _ := .ok ()
  start _ _ := .error .notFound

def surroundings (w : Workspace) (launcher : Launcher) : Surroundings where
  disk := w.disk
  denial _ _ := none
  parser := Parser.ofTables w.tables
  launcher := launcher

end Workspace
end LogProbe
