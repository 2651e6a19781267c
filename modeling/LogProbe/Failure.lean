import LogProbe.Text.Basic

/-! The reasons for which an edit or a command stops. -/
namespace LogProbe

inductive Failure where
  /-- The parser has no use for the grammar of a document. -/
  | grammar (cause : Text)
  /-- An edit reaches into the span of the edit below it. -/
  | overlap (offset : Nat)
  /-- An edit lies outside its text of `size` bytes, or ends within a character. -/
  | outOfBounds (offset size : Nat)
  | formatter (cause : Text)
  /-- A text had to be cut where it has no boundary, or was larger or wider than a text can be: the
  command breaks down. -/
  | badCut
  /-- The search for a target goes round in a circle: the command does not end. -/
  | endless
  deriving DecidableEq, Repr

namespace Failure

/-- What a command says of its failure, unless it breaks down or does not end. -/
def message? : Failure → Option String
  | grammar cause => some ("tree-sitter rejected the grammar: " ++ String.ofList cause)
  | overlap offset => some s!"edits overlap at byte {offset}"
  | outOfBounds offset size => some s!"offset {offset} is outside a document of {size} bytes"
  | formatter cause => some ("host: " ++ String.ofList cause)
  | badCut => none
  | endless => none

/-- The cause that a command names of its own accord below the message. -/
def cause? : Failure → Option Text
  | grammar cause => some cause
  | _ => none

end Failure

/-- A missing cut is a failure of the whole command. -/
def orBadCut {α : Type} : Option α → Except Failure α
  | some a => .ok a
  | none => .error .badCut

end LogProbe
