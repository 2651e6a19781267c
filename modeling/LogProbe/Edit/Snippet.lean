import LogProbe.Text.Basic

/-! Snippets: texts with the tab stops `$1` and `$0`, at the first of which the cursor is put. -/
namespace LogProbe

structure Snippet where
  body : Text
  deriving DecidableEq, Repr

namespace Snippet

/-- Leaves out every tab stop with the digit `d`. -/
def dropStops (d : Char) : Text → Text
  | '$' :: c :: t => if c = d then dropStops d t else '$' :: dropStops d (c :: t)
  | c :: t => c :: dropStops d t
  | [] => []

/-- The text before the first tab stop with the digit `d`. -/
def beforeStop? (d : Char) : Text → Option Text
  | '$' :: c :: t => if c = d then some [] else (beforeStop? d (c :: t)).map ('$' :: ·)
  | c :: t => (beforeStop? d t).map (c :: ·)
  | [] => none

/-- A body as it is inserted, first without `$1` and then without `$0`. -/
def plain (body : Text) : Text := dropStops '0' (dropStops '1' body)

def plainText (s : Snippet) : Text := plain s.body

/-- The offset of the first tab stop within the plain text. A `$1` comes before any `$0`. -/
def firstStop? (s : Snippet) : Option Nat :=
  (beforeStop? '1' s.body <|> beforeStop? '0' s.body).map fun t => (plain t).size

end Snippet
end LogProbe
