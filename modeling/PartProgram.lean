import PartProgram.Block.Axis
import PartProgram.Block.Basic
import PartProgram.Block.Modal
import PartProgram.Block.Motion
import PartProgram.Block.Reading
import PartProgram.Block.Writing
import PartProgram.Command.Arguments
import PartProgram.Command.Grammar
import PartProgram.Command.Run
import PartProgram.Conversion
import PartProgram.Drawing.Overlay
import PartProgram.Drawing.Path
import PartProgram.Drawing.Trace
import PartProgram.Edit.Anchor
import PartProgram.Edit.Basic
import PartProgram.Edit.Heights
import PartProgram.Edit.Mirror
import PartProgram.Edit.Offset
import PartProgram.Edit.Scaling
import PartProgram.Failure
import PartProgram.HeightMap
import PartProgram.Json.Answer
import PartProgram.Json.HeightMap
import PartProgram.Json.Number
import PartProgram.Json.Parser
import PartProgram.Json.Printer
import PartProgram.Json.Value
import PartProgram.Machine
import PartProgram.Main
import PartProgram.Number.Binary64
import PartProgram.Number.Decimal
import PartProgram.Number.Floating
import PartProgram.Number.Length
import PartProgram.Number.Scalar
import PartProgram.Number.Shortest
import PartProgram.Number.Width
import PartProgram.Pass
import PartProgram.Plane.Arc
import PartProgram.Plane.Extent
import PartProgram.Plane.Point
import PartProgram.Program.Basic
import PartProgram.Program.Coordinates
import PartProgram.Program.Listing
import PartProgram.Program.Placing
import PartProgram.Program.Reading
import PartProgram.Program.Splitting
import PartProgram.Program.Subroutine
import PartProgram.Proofs.Block.Blanks
import PartProgram.Proofs.Block.Comments
import PartProgram.Proofs.Block.Restyling
import PartProgram.Proofs.Block.SingleLine
import PartProgram.Proofs.Block.Spelling
import PartProgram.Proofs.Block.Words
import PartProgram.Proofs.Conversion
import PartProgram.Proofs.Drawing.Continuity
import PartProgram.Proofs.Drawing.Contours
import PartProgram.Proofs.Drawing.Drills
import PartProgram.Proofs.Drawing.Figures
import PartProgram.Proofs.Drawing.View
import PartProgram.Proofs.Edit.Calls
import PartProgram.Proofs.Edit.Carrying
import PartProgram.Proofs.Edit.Chain
import PartProgram.Proofs.Edit.Chords
import PartProgram.Proofs.Edit.Cutting
import PartProgram.Proofs.Edit.Drift
import PartProgram.Proofs.Edit.Dropping
import PartProgram.Proofs.Edit.Flattening
import PartProgram.Proofs.Edit.Following
import PartProgram.Proofs.Edit.Linearizing
import PartProgram.Proofs.Edit.Lines
import PartProgram.Proofs.Edit.Meaning
import PartProgram.Proofs.Edit.Mirroring
import PartProgram.Proofs.Edit.Modes
import PartProgram.Proofs.Edit.PassThrough
import PartProgram.Proofs.Edit.Pieces
import PartProgram.Proofs.Edit.Raising
import PartProgram.Proofs.Edit.Relinearizing
import PartProgram.Proofs.Edit.Reoffsetting
import PartProgram.Proofs.Edit.Rereading
import PartProgram.Proofs.Edit.Reslotting
import PartProgram.Proofs.Edit.Restoring
import PartProgram.Proofs.Edit.Retracing
import PartProgram.Proofs.Edit.Rewriting
import PartProgram.Proofs.Edit.RoundTrip
import PartProgram.Proofs.Edit.Shifting
import PartProgram.Proofs.Edit.Slots
import PartProgram.Proofs.Edit.Steps
import PartProgram.Proofs.Edit.Straight
import PartProgram.Proofs.Edit.Stretching
import PartProgram.Proofs.Edit.Trailing
import PartProgram.Proofs.Edit.Turning
import PartProgram.Proofs.Edit.Unturned
import PartProgram.Proofs.HeightMap
import PartProgram.Proofs.Landmark
import PartProgram.Proofs.Number.Exact
import PartProgram.Proofs.Number.Formatting
import PartProgram.Proofs.Number.Legible
import PartProgram.Proofs.Number.Nearest
import PartProgram.Proofs.Number.Ordered
import PartProgram.Proofs.Number.Rendering
import PartProgram.Proofs.Number.Rounding
import PartProgram.Proofs.Number.Unpacked
import PartProgram.Proofs.Pass
import PartProgram.Proofs.Plane.Arc
import PartProgram.Proofs.Plane.Circle
import PartProgram.Proofs.Plane.Enclosing
import PartProgram.Proofs.Plane.Extent
import PartProgram.Proofs.Plane.Map
import PartProgram.Proofs.Plane.Sweep
import PartProgram.Proofs.Program.Blanking
import PartProgram.Proofs.Program.Bounding
import PartProgram.Proofs.Program.Context
import PartProgram.Proofs.Program.Drawable
import PartProgram.Proofs.Program.Ending
import PartProgram.Proofs.Program.Expansion
import PartProgram.Proofs.Program.Figures
import PartProgram.Proofs.Program.Flattened
import PartProgram.Proofs.Program.Framing
import PartProgram.Proofs.Program.Insertion
import PartProgram.Proofs.Program.Lookup
import PartProgram.Proofs.Program.Mapping
import PartProgram.Proofs.Program.Numbering
import PartProgram.Proofs.Program.Order
import PartProgram.Proofs.Program.Placing
import PartProgram.Proofs.Program.Reading
import PartProgram.Proofs.Program.Running
import PartProgram.Proofs.Program.Settled
import PartProgram.Proofs.Program.Texts
import PartProgram.Proofs.Program.Travel
import PartProgram.Proofs.Program.Unrolling
import PartProgram.Proofs.Query
import PartProgram.Proofs.Session
import PartProgram.Proofs.Text.Lines
import PartProgram.Query
import PartProgram.Session
import PartProgram.Settings
import PartProgram.Text.Blank
import PartProgram.Text.Lines
import PartProgram.Text.Upper
import PartProgram.Toml.Fields
import PartProgram.Toml.Machine
import PartProgram.Toml.Parser
import PartProgram.Toml.Settings
import PartProgram.Toml.Value
