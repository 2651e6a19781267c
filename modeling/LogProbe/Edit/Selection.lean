import LogProbe.Text.Basic

/-! Cursors and selections. -/
namespace LogProbe

/-- A selection runs from its anchor to its active end, where the cursor is. The active end may
stand before the anchor. -/
structure Selection where
  anchor : Nat
  active : Nat
  deriving DecidableEq, Repr

namespace Selection

def cursor (offset : Nat) : Selection := ⟨offset, offset⟩

def isReversed (s : Selection) : Bool := s.active < s.anchor

def start (s : Selection) : Nat := min s.anchor s.active

def stop (s : Selection) : Nat := max s.anchor s.active

theorem start_le_stop (s : Selection) : s.start ≤ s.stop := by
  simp only [start, stop]; omega

/-- The selections with the last start first; equal starts keep their order. -/
def bottomFirst (selections : List Selection) : List Selection :=
  selections.mergeSort fun a b => b.start ≤ a.start

theorem bottomFirst_perm (selections : List Selection) :
    (bottomFirst selections).Perm selections := List.mergeSort_perm _ _

end Selection
end LogProbe
