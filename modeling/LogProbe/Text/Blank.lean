import LogProbe.Text.Basic

/-! White space, as Unicode's property `White_Space` has it, and its removal at the ends. -/
namespace LogProbe

/-- The code points of `White_Space`, as closed ranges. -/
def blankRanges : List (Nat × Nat) :=
  [(0x9, 0xD), (0x20, 0x20), (0x85, 0x85), (0xA0, 0xA0), (0x1680, 0x1680), (0x2000, 0x200A),
    (0x2028, 0x2029), (0x202F, 0x202F), (0x205F, 0x205F), (0x3000, 0x3000)]

def isBlank (c : Char) : Bool := blankRanges.any fun (lo, hi) => lo ≤ c.toNat && c.toNat ≤ hi

/-- A character that indents a line: a space or a tab. -/
def isPadding (c : Char) : Bool := c == ' ' || c == '\t'

theorem isBlank_of_isPadding {c : Char} (h : isPadding c = true) : isBlank c = true := by
  simp only [isPadding, Bool.or_eq_true, beq_iff_eq] at h
  rcases h with rfl | rfl <;> decide

namespace Text

def trimEnd (t : Text) : Text := dropEndWhile isBlank t

def trim (t : Text) : Text := trimEnd (t.dropWhile isBlank)

end Text
end LogProbe
