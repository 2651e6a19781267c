import LogProbe.Main
import LogProbe.Proofs.CommandLine.DryRun
import LogProbe.Proofs.CommandLine.Positions
import LogProbe.Proofs.CommandLine.Sources
import LogProbe.Proofs.Edit.Levels
import LogProbe.Proofs.Editor.Abort
import LogProbe.Proofs.Editor.Conservation
import LogProbe.Proofs.Editor.Cursors
import LogProbe.Proofs.Editor.DocumentOrder
import LogProbe.Proofs.Editor.OneBatch
import LogProbe.Proofs.Editor.Removal
import LogProbe.Proofs.Editor.Selections
import LogProbe.Proofs.Editor.Snippets
import LogProbe.Proofs.Log.ArrowValue
import LogProbe.Proofs.Log.Defaults
import LogProbe.Proofs.Log.Enclosure
import LogProbe.Proofs.Log.Escapes
import LogProbe.Proofs.Log.FixedPoint
import LogProbe.Proofs.Log.Innermost
import LogProbe.Proofs.Log.Neighbours
import LogProbe.Proofs.Log.Planning
import LogProbe.Proofs.Log.Search
import LogProbe.Proofs.Log.Separation
import LogProbe.Proofs.Log.Substitute
import LogProbe.Proofs.Log.TokenEnds
import LogProbe.Proofs.Log.Tokens
import LogProbe.Proofs.Log.Truncation
import LogProbe.Proofs.Log.Undo
import LogProbe.Proofs.Syntax.Build
import LogProbe.Proofs.Text.Offset
