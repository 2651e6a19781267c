import LogProbe.Edit.Batch
import LogProbe.Text.Line
import LogProbe.Text.Numeral

/-! Indentation of inserted text. The lines of an inserted text are padded for the line on which
it lands, one level deeper after a line that ends in an opening brace and one level less deep on a
line that starts with a closing one. -/
namespace LogProbe

/-- How a document is indented: by spaces or by tabs, and how wide a tab is. -/
structure Indent where
  spaces : Bool := true
  width : Nat := 4
  deriving DecidableEq, Repr

namespace Indent

/-- One level of padding. -/
def unit? (i : Indent) : Option Text :=
  if i.spaces then Text.repeat? [' '] i.width else some ['\t']

/-- The columns that one level takes, at least one. -/
def columns (i : Indent) : Nat := max i.width 1

def columnsOf (i : Indent) : Text → Nat
  | [] => 0
  | c :: t => (if c = '\t' then i.columns else 1) + columnsOf i t

/-- The level of a padding, unless it is wider than a word of 64 bits can count. -/
def levelOf? (i : Indent) (padding : Text) : Option Nat :=
  (Numeral.word? (i.columnsOf padding)).map (· / i.columns)

/-- The level of a line after `previous`, which stands at `level`. -/
def nextLevel (level : Nat) (previous line : Text) : Nat :=
  let inner := if previous.endsWith '{' then level + 1 else level
  if Text.startsWith (line.dropWhile isPadding) '}' then inner - 1 else inner

/-- Pads the lines that follow `previous`. -/
def padLines? (unit : Text) : Nat → Text → List Text → Option (List Text)
  | _, _, [] => some []
  | level, previous, line :: rest => do
    let level := nextLevel level previous line
    let padding ← unit.repeat? level
    let padded ← padLines? unit level line rest
    return (padding ++ line.dropWhile isPadding) :: padded

/-- Indents all lines but the first for a line padded with `base`. A text with a backtick may hold
a template literal, whose contents must not change, and stays as it is. Only a padding of its own
can be too long here: whether the lines together are is left open. -/
def reindent? (i : Indent) (text base : Text) : Option Text :=
  if text.contains '\x60' then some text
  else do
    let unit ← i.unit?
    let level ← i.levelOf? base
    let (first, rest) := text.split '\n'
    let rest ← padLines? unit level first rest
    return Text.join '\n' first rest

/-- Indents the text of an edit for the line of `source` on which the edit starts. A text that
breaks the line right after an opening brace goes one level deeper. -/
def reindentEdit? (i : Indent) (source : Text) (e : Edit) : Option Edit := do
  let view ← LineView.at? source e.start
  let base := view.head.takeWhile isPadding
  let base ←
    if e.text.startsWith '\n' && view.head.trimEnd.endsWith '{' then
      i.unit?.map (base ++ ·)
    else some base
  let text ← i.reindent? e.text base
  return { e with text }

end Indent
end LogProbe
