import LogProbe.Log.Plan
import LogProbe.Text.Numeral

/-! Planned changes in printed form: JSON with an indentation of two spaces. -/
namespace LogProbe
namespace Printed

def hexDigit (n : Nat) : Char := Nat.digitChar (n % 16)

/-- A character of a string. Control characters are escaped, all others beyond quote and backslash
stand for themselves. -/
def character (c : Char) : Text :=
  if c = '"' then ['\\', '"']
  else if c = '\\' then ['\\', '\\']
  else if c = '\n' then ['\\', 'n']
  else if c = '\r' then ['\\', 'r']
  else if c = '\t' then ['\\', 't']
  else if c = '\x08' then ['\\', 'b']
  else if c = '\x0c' then ['\\', 'f']
  else if c.toNat < 0x20 then
    ['\\', 'u', '0', '0', hexDigit (c.toNat / 16), hexDigit c.toNat]
  else [c]

def string (t : Text) : Text := '"' :: t.flatMap character ++ ['"']

/-- Moves every line but the first one level in. No string holds a line feed. -/
def nested (t : Text) : Text := t.flatMap fun c => if c = '\n' then ['\n', ' ', ' '] else [c]

def enclosed (left right : Char) (items : List Text) : Text :=
  match items.map nested with
  | [] => [left, right]
  | first :: rest =>
    left :: "\n  ".toList ++ first ++ rest.flatMap (",\n  ".toList ++ ·) ++ ['\n', right]

def array (items : List Text) : Text := enclosed '[' ']' items

def object (members : List (Text × Text)) : Text :=
  enclosed '{' '}' (members.map fun (name, value) => string name ++ ": ".toList ++ value)

/-- An object whose members have the given names. -/
def fields (members : List (String × Text)) : Text :=
  object (members.map fun (name, value) => (name.toList, value))

def selection (s : Selection) : Text :=
  fields [("anchor", Numeral.ofNat s.anchor), ("active", Numeral.ofNat s.active)]

def insertion : Insertion → Text
  | .snippet site s =>
    fields [("type", string "snippet".toList), ("at", selection site),
      ("snippet", fields [("body", string s.body)])]
  | .edit e =>
    fields [("type", string "edit".toList), ("start", Numeral.ofNat e.start),
      ("end", Numeral.ofNat e.stop), ("new_text", string e.text)]

def insertions (plan : List Insertion) : Text := array (plan.map insertion)

def edit (e : Edit) : Text :=
  fields [("end", Numeral.ofNat e.stop), ("new_text", string e.text),
    ("start", Numeral.ofNat e.start)]

/-- Puts an entry into a map in the order of its keys, in the place of one with the same key. -/
def put {α : Type} (key : Text) (value : α) : List (Text × α) → List (Text × α)
  | [] => [(key, value)]
  | (k, v) :: rest =>
    if key < k then (key, value) :: (k, v) :: rest
    else if key = k then (key, value) :: rest
    else (k, v) :: put key value rest

/-- The map of entries, in which later ones take the place of earlier ones. -/
def mapOf {α : Type} (entries : List (Text × α)) : List (Text × α) :=
  entries.foldl (fun map (key, value) => put key value map) []

/-- A map of the edits of files under the paths of the files as they are shown. -/
def editsByPath (map : List (Text × List Edit)) : Text :=
  object (map.map fun (path, edits) => (path, array (edits.map edit)))

end Printed
end LogProbe
