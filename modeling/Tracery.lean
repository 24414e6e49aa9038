import Tracery.Options.File
import Tracery.Path.RoundedPolygon
import Tracery.Scene.Decode
import Tracery.Scene.Encode
import Tracery.Sequence.Steps
import Tracery.Shape.Arrange
import Tracery.Drawing.Transcript
import Tracery.Svg.Canvas
import Tracery.Proofs.Drawing.Calls
import Tracery.Proofs.Drawing.Names
import Tracery.Proofs.Drawing.Attributes
import Tracery.Proofs.Drawing.Strict
import Tracery.Proofs.Drawing.Simulation
import Tracery.Proofs.Drawing.Rearrangement
import Tracery.Proofs.Drawing.Replay
import Tracery.Proofs.Svg.Forest
import Tracery.Proofs.OrderedMap
import Tracery.Proofs.Text
import Tracery.Proofs.Svg.Tree
import Tracery.Proofs.Svg.Drawing
import Tracery.Proofs.Svg.Rendering
import Tracery.Proofs.Svg.Serialization
import Tracery.Proofs.Svg.Reading
import Tracery.Proofs.Svg.Escaping
import Tracery.Proofs.Svg.Frame
import Tracery.Proofs.Svg.Canvas
import Tracery.Proofs.Svg.Arrangement
import Tracery.Proofs.Svg.Surface
import Tracery.Proofs.Svg.StartTags
import Tracery.Proofs.Svg.Moves
import Tracery.Proofs.Decimal.Rank
import Tracery.Proofs.Decimal.Scanning
import Tracery.Proofs.Decimal.Spelling
import Tracery.Proofs.Decimal.Finite
import Tracery.Proofs.Decimal.Value
import Tracery.Proofs.Decimal.Rounding
import Tracery.Proofs.NumberText
import Tracery.Proofs.Paint.Grammar
import Tracery.Proofs.Paint.Reading
import Tracery.Proofs.Path.Corners
import Tracery.Proofs.Path.Reading
import Tracery.Proofs.Json.Reading
import Tracery.Proofs.Toml.Quoting
import Tracery.Proofs.Toml.Lines
import Tracery.Proofs.Options.File
import Tracery.Proofs.Sequence.Random
import Tracery.Proofs.Shape.Edits
import Tracery.Proofs.Shape.Lattice
import Tracery.Proofs.Scene.Kinds
import Tracery.Proofs.Scene.Values
import Tracery.Proofs.Scene.Encoding
import Tracery.Proofs.Scene.Decoding
import Tracery.Proofs.Scene.Reopening
import Tracery.Proofs.NormalForm.Idempotence
import Tracery.Proofs.NormalForm.Drawing
import Tracery.Proofs.NormalForm.Presence
import Tracery.Proofs.NormalForm.Frame
import Tracery.Proofs.NormalForm.Transform
import Tracery.Proofs.NormalForm.Boxes
import Tracery.Proofs.NormalForm.Delivery
import Tracery.Proofs.NormalForm.Order
import Tracery.Proofs.NormalForm.Nulls
import Tracery.Proofs.NormalForm.Likeness
import Tracery.Proofs.NormalForm.Mentions
import Tracery.Proofs.NormalForm.Finiteness
import Tracery.Proofs.NormalForm.Outlines
