import LogProbe.Path
import Mathlib.Data.List.Lex
import Mathlib.Data.Prod.Lex

/-! The order of paths. It is the lexicographic order of keys that paths have in common only where
their components are the same, so of sorted paths each is left once. -/
namespace LogProbe

instance linearOrderByte : LinearOrder UInt8 where
  le_refl _ := @le_refl ℕ _ _
  le_trans _ _ _ := @le_trans ℕ _ _ _ _
  le_antisymm _ _ := UInt8.le_antisymm
  le_total _ _ := @le_total ℕ _ _ _
  lt_iff_le_not_ge _ _ := @lt_iff_le_not_ge ℕ _ _ _
  toDecidableLE := inferInstance

namespace Component

/-- Names come behind all others, in the order of their bytes. -/
def key (c : Component) : ℕ ×ₗ Bytes :=
  match c with
  | name t => toLex (3, t)
  | c => toLex (c.rank, [])

end Component

namespace Path

def key (path : Bytes) : List (ℕ ×ₗ Bytes) := (components path).map Component.key

end Path
end LogProbe
