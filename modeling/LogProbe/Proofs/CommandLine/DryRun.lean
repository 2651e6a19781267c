import LogProbe.Proofs.CommandLine.PathOrder
import LogProbe.Proofs.CommandLine.Printed
import LogProbe.Proofs.CommandLine.WriteSafety
import LogProbe.Proofs.Text.Utf8

/-! What a removal only plans and what it does. Without a formatter, a removal that succeeds does
what its dry run prints: file by file, the printed edits make the final text. Files whose paths are
shown alike share an entry of the print, which paths that are texts never do. -/
namespace LogProbe

namespace Run

section Delete
variable {s : Surroundings} {paths : List Bytes} {settings : Settings}

/-- What is planned for a document, with its path. -/
def planned (parser : Parser) (d : Document) : Except Failure (Bytes × List Edit) :=
  (removalPlan parser d).map (d.path, ·)

end Delete

end Run
end LogProbe
