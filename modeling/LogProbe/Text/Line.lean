import LogProbe.Text.Blank

/-! Lines of a text. A line ends at a line feed or at the end of the text; a carriage return just
before that place belongs to the line break. -/
namespace LogProbe

namespace Text

/-- Leaves out a carriage return at the end. -/
def dropReturn (t : Text) : Text := if endsWith t '\r' then t.dropLast else t

end Text

/-- A text seen from an offset: the lines above, the offset's line up to the offset and from it to
the line feed, and all from the line feed on. -/
structure LineView where
  above : Text
  head : Text
  tail : Text
  below : Text
  deriving DecidableEq, Repr

namespace LineView

def ofCut (upper lower : Text) : LineView where
  above := upper.dropEndWhile (· != '\n')
  head := upper.takeEndWhile (· != '\n')
  tail := lower.takeWhile (· != '\n')
  below := lower.dropWhile (· != '\n')

def at? (t : Text) (offset : Nat) : Option LineView :=
  (t.cut? offset).map fun (upper, lower) => ofCut upper lower

/-- The four parts make up the text. -/
theorem append_of_at? {t : Text} {n : Nat} {v : LineView} (h : at? t n = some v) :
    t = v.above ++ v.head ++ v.tail ++ v.below ∧ Text.size (v.above ++ v.head) = n := by
  simp only [at?, Option.map_eq_some_iff] at h
  obtain ⟨⟨a, b⟩, hc, rfl⟩ := h
  obtain ⟨rfl, hs⟩ := Text.append_of_cut? hc
  simp only [ofCut, List.append_assoc, List.takeWhile_append_dropWhile]
  rw [← List.append_assoc, Text.dropEndWhile_append_takeEndWhile]
  exact ⟨rfl, hs⟩

/-- The offset of the line's first character. -/
def start (v : LineView) : Nat := v.above.size

/-- The line without its break. -/
def content (v : LineView) : Text := v.head ++ v.tail.dropReturn

/-- The offset of the line break, or of the end of the text. -/
def stop (v : LineView) : Nat := Text.size (v.above ++ v.head ++ v.tail.dropReturn)

/-- The offset past the line break. -/
def stopWithBreak (v : LineView) : Nat :=
  Text.size (v.above ++ v.head ++ v.tail ++ v.below.take 1)

/-- The offset of the first character that is no padding. -/
def contentStart (v : LineView) : Nat :=
  Text.size (v.above ++ v.content.takeWhile isPadding)

end LineView

namespace Text

def lineStart? (t : Text) (offset : Nat) : Option Nat := (LineView.at? t offset).map (·.start)

def lineEnd? (t : Text) (offset : Nat) : Option Nat := (LineView.at? t offset).map (·.stop)

def lineEndWithBreak? (t : Text) (offset : Nat) : Option Nat :=
  (LineView.at? t offset).map (·.stopWithBreak)

def contentStart? (t : Text) (offset : Nat) : Option Nat :=
  (LineView.at? t offset).map (·.contentStart)

/-- The offset of a position counted in lines and, within the line, in characters, both from zero.
A position past the end of its line is the end of that line, one past the last line the end of the
text. -/
def offsetAt : Text → Nat → Nat → Nat
  | t, 0, column => size ((dropReturn (t.takeWhile (· != '\n'))).take column)
  | [], _ + 1, _ => 0
  | c :: t, line + 1, column =>
    c.utf8Size + offsetAt t (if c = '\n' then line else line + 1) column

end Text
end LogProbe
