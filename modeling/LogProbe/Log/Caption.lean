import LogProbe.Text.Blank

/-! Captions: the source text of a logged expression, made fit for a string literal and short. -/
namespace LogProbe
namespace Caption

/-- Leaves out line breaks, with the carriage return of each. -/
def dropBreaks : Text → Text
  | '\r' :: '\n' :: t => dropBreaks t
  | c :: t => if c = '\n' then dropBreaks t else c :: dropBreaks t
  | [] => []

def requote (t : Text) : Text := t.map fun c => if c = '\'' then '"' else c

/-- Writes every run of white space as one space; `inRun` tells whether one is under way. -/
def squeeze (inRun : Bool) : Text → Text
  | [] => []
  | c :: t =>
    if isBlank c then (if inRun then squeeze true t else ' ' :: squeeze true t)
    else c :: squeeze false t

/-- Flattens a text for a literal in single quotes. -/
def escape (t : Text) : Text := squeeze false (requote (dropBreaks t))

/-- The longest caption that is kept whole, in characters. -/
def maxLength : Nat := 30

def ellipsis : Char := '⋯'

/-- Length of the escape sequence that a text starts with, its backslash included. -/
def escapeLength (t : Text) : Nat :=
  match t.drop 1 with
  | [] => 1
  | 'x' :: _ => 4
  | 'u' :: '{' :: _ => min ((t.takeWhile (· != '}')).length + 1) t.length
  | 'u' :: _ => 6
  | _ => 2

/-- How many of the first `cut` characters to keep so that no escape sequence is split. The first
argument counts what is left of the sequence under way. -/
def keepWhole : Nat → Text → Nat → Nat
  | _, [], _ => 0
  | _, _ :: _, 0 => 0
  | pending + 1, _ :: t, cut + 1 => keepWhole pending t cut + 1
  | 0, c :: t, cut + 1 =>
    if c = '\\' then
      let length := escapeLength (c :: t)
      if cut + 1 < length then 0 else keepWhole (length - 1) t cut + 1
    else keepWhole 0 t cut + 1

def escapeBoundary (t : Text) (cut : Nat) : Nat := keepWhole 0 t cut

/-- Whether a text opens more parentheses than it closes. -/
def hasOpenGroup (t : Text) : Bool := t.count ')' < t.count '('

/-- Shortens a caption. A call that would be cut within its arguments keeps a closing
parenthesis. -/
def truncate (t : Text) : Text :=
  if t.length ≤ maxLength then t
  else
    let inner := t.take (escapeBoundary t (maxLength - 2))
    if t.endsWith ')' && hasOpenGroup inner then inner ++ [ellipsis, ')']
    else t.take (escapeBoundary t (maxLength - 1)) ++ [ellipsis]

def ofText (t : Text) : Text := truncate (escape t)

end Caption

/-- The log statement: the caption alone, or the caption and the expression it names. -/
def logStatement (caption : Text) : Option Text → Text
  | some expression =>
    "console.log('*** ".toList ++ caption ++ " »', ".toList ++ expression ++ [')']
  | none => "console.log('*** ".toList ++ caption ++ "')".toList

end LogProbe
