import LogProbe.Edit.Selection
import LogProbe.Text.Line
import LogProbe.Text.Numeral

/-! Positions as they are typed: line and column, both from one. -/
namespace LogProbe

structure Position where
  line : Nat
  column : Nat
  deriving DecidableEq, Repr

inductive PositionError where
  | noColon (typed : Text)
  | zero (typed : Text)
  | number (part typed : Text) (cause : NumeralError)
  deriving DecidableEq, Repr

namespace PositionError

def quoted (t : Text) : Text := ['\x60'] ++ t ++ ['\x60']

def message : PositionError → Text
  | noColon typed => "expected LINE:COL, got ".toList ++ quoted typed
  | zero typed => "lines and columns start at 1 in ".toList ++ quoted typed
  | number part typed cause =>
    quoted part ++ " in ".toList ++ quoted typed ++ ": ".toList ++ cause.message

end PositionError

namespace Position

def parseNumber (typed part : Text) : Except PositionError Nat :=
  match Numeral.parse part.trim with
  | .ok 0 => .error (.zero typed)
  | .ok n => .ok n
  | .error cause => .error (.number part typed cause)

def parse (typed : Text) : Except PositionError Position :=
  match Text.splitOnce? [':'] typed with
  | none => .error (.noColon typed)
  | some (line, column) => do
    return ⟨← parseNumber typed line, ← parseNumber typed column⟩

def offsetIn (text : Text) (p : Position) : Nat := text.offsetAt (p.line - 1) (p.column - 1)

end Position

/-- A typed selection, from its anchor to its active end. -/
structure PositionSpan where
  anchor : Position
  active : Position
  deriving DecidableEq, Repr

namespace PositionSpan

/-- Reads two positions with two dots between them, or one that is both ends. -/
def parse (typed : Text) : Except PositionError PositionSpan :=
  match Text.splitOnce? ['.', '.'] typed with
  | some (anchor, active) => do return ⟨← Position.parse anchor, ← Position.parse active⟩
  | none => do
    let position ← Position.parse typed
    return ⟨position, position⟩

def selectionIn (text : Text) (s : PositionSpan) : Selection :=
  ⟨s.anchor.offsetIn text, s.active.offsetIn text⟩

end PositionSpan
end LogProbe
