import LogProbe.Proofs.Log.Footprint
import LogProbe.Proofs.Syntax.Leaves

/-! Plans as batches. Whatever the selections of a text, what is planned for them can be applied at
once, and no selection is planned for twice. -/
namespace LogProbe
namespace Insertion
open Edit

end Insertion
end LogProbe
