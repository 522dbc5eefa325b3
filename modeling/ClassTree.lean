import ClassTree.Batch
import ClassTree.Bytes
import ClassTree.Class.Basic
import ClassTree.Class.Constant
import ClassTree.Class.Edit
import ClassTree.Class.Element
import ClassTree.Class.Frame
import ClassTree.Class.Instruction
import ClassTree.CommandLine.Arguments
import ClassTree.CommandLine.Failure
import ClassTree.CommandLine.Files
import ClassTree.CommandLine.Run
import ClassTree.Decoding.Attributes
import ClassTree.Decoding.ClassFile
import ClassTree.Decoding.Code
import ClassTree.Decoding.Decoder
import ClassTree.Decoding.Element
import ClassTree.Decoding.Member
import ClassTree.Decoding.Operation
import ClassTree.Decoding.Outline
import ClassTree.Decoding.StackMap
import ClassTree.Decoding.Table
import ClassTree.Descriptor
import ClassTree.Encoding.ClassFile
import ClassTree.Encoding.Code
import ClassTree.Encoding.Constant
import ClassTree.Encoding.Element
import ClassTree.Encoding.Encoder
import ClassTree.Encoding.Layout
import ClassTree.Encoding.Member
import ClassTree.Encoding.Operation
import ClassTree.Encoding.StackMap
import ClassTree.Error
import ClassTree.Flow.Effect
import ClassTree.Flow.Frames
import ClassTree.Flow.Program
import ClassTree.Flow.Solver
import ClassTree.Flow.State
import ClassTree.Flow.Weight
import ClassTree.Form
import ClassTree.Label.Registry
import ClassTree.Literal.Codec
import ClassTree.Literal.Kind
import ClassTree.Main
import ClassTree.Number.Binary
import ClassTree.Number.Shortest
import ClassTree.Opcode.Basic
import ClassTree.Pool.Basic
import ClassTree.Pool.Encoding
import ClassTree.Pool.Entry
import ClassTree.Proofs.Acceptance
import ClassTree.Proofs.Acceptance.Body
import ClassTree.Proofs.Acceptance.Bootstrap
import ClassTree.Proofs.Acceptance.ClassFile
import ClassTree.Proofs.Acceptance.Code
import ClassTree.Proofs.Acceptance.Element
import ClassTree.Proofs.Acceptance.Member
import ClassTree.Proofs.Acceptance.StackMap
import ClassTree.Proofs.AttributeLength
import ClassTree.Proofs.Attributes
import ClassTree.Proofs.Bytes
import ClassTree.Proofs.Class.Drawn
import ClassTree.Proofs.Class.Faultless
import ClassTree.Proofs.Class.Legible
import ClassTree.Proofs.Class.Proper
import ClassTree.Proofs.Class.Sound
import ClassTree.Proofs.Constant
import ClassTree.Proofs.Decoder
import ClassTree.Proofs.Decoding.Assembly
import ClassTree.Proofs.Decoding.ClassFile
import ClassTree.Proofs.Decoding.Closed
import ClassTree.Proofs.Decoding.CodeTables
import ClassTree.Proofs.Decoding.Drawn
import ClassTree.Proofs.Decoding.DrawnCode
import ClassTree.Proofs.Decoding.Entities
import ClassTree.Proofs.Decoding.Fault
import ClassTree.Proofs.Decoding.Following
import ClassTree.Proofs.Decoding.Inside
import ClassTree.Proofs.Decoding.Labels
import ClassTree.Proofs.Decoding.LookAhead
import ClassTree.Proofs.Decoding.Markers
import ClassTree.Proofs.Decoding.ParameterTables
import ClassTree.Proofs.Decoding.Parts
import ClassTree.Proofs.Decoding.Placement
import ClassTree.Proofs.Decoding.Raw
import ClassTree.Proofs.Decoding.Sound
import ClassTree.Proofs.Decoding.Storable
import ClassTree.Proofs.Decoding.Total
import ClassTree.Proofs.Descriptor
import ClassTree.Proofs.ElementCodec
import ClassTree.Proofs.Emission
import ClassTree.Proofs.Encoder
import ClassTree.Proofs.Encoding.ClassFile
import ClassTree.Proofs.Encoding.Code
import ClassTree.Proofs.Encoding.CodeTables
import ClassTree.Proofs.Encoding.Kept
import ClassTree.Proofs.Encoding.Labels
import ClassTree.Proofs.Encoding.Layout
import ClassTree.Proofs.Encoding.Outcome
import ClassTree.Proofs.Encoding.Serving
import ClassTree.Proofs.Encoding.SettledCode
import ClassTree.Proofs.Encoding.Steady
import ClassTree.Proofs.Exact
import ClassTree.Proofs.Flow.Composition
import ClassTree.Proofs.Flow.Contract
import ClassTree.Proofs.Flow.Depth
import ClassTree.Proofs.Flow.Frames
import ClassTree.Proofs.Flow.Freshness
import ClassTree.Proofs.Flow.Growth
import ClassTree.Proofs.Flow.Identity
import ClassTree.Proofs.Flow.Invariant
import ClassTree.Proofs.Flow.Labels
import ClassTree.Proofs.Flow.Merge
import ClassTree.Proofs.Flow.Moment
import ClassTree.Proofs.Flow.Naming
import ClassTree.Proofs.Flow.Origin
import ClassTree.Proofs.Flow.Pairing
import ClassTree.Proofs.Flow.Refusal
import ClassTree.Proofs.Flow.Renumber
import ClassTree.Proofs.Flow.Solution
import ClassTree.Proofs.Flow.StackUse
import ClassTree.Proofs.Flow.Termination
import ClassTree.Proofs.FrameCodec
import ClassTree.Proofs.Label.History
import ClassTree.Proofs.Label.Registry
import ClassTree.Proofs.LabelClosure
import ClassTree.Proofs.LineTables
import ClassTree.Proofs.Literal
import ClassTree.Proofs.LocalVariables
import ClassTree.Proofs.Number.Binary
import ClassTree.Proofs.Operation
import ClassTree.Proofs.Outline
import ClassTree.Proofs.ParameterAttributes
import ClassTree.Proofs.Pool.Adding
import ClassTree.Proofs.Pool.Encoding
import ClassTree.Proofs.Pool.Fit
import ClassTree.Proofs.Pool.Growth
import ClassTree.Proofs.Pool.Request
import ClassTree.Proofs.Pool.Seed
import ClassTree.Proofs.Pool.Sound
import ClassTree.Proofs.RawAttributes
import ClassTree.Proofs.ReadBack.Attributes
import ClassTree.Proofs.ReadBack.ClassFile
import ClassTree.Proofs.ReadBack.Code
import ClassTree.Proofs.ReadBack.Field
import ClassTree.Proofs.ReadBack.FreshCode
import ClassTree.Proofs.ReadBack.FreshMember
import ClassTree.Proofs.ReadBack.FreshPool
import ClassTree.Proofs.ReadBack.Hints
import ClassTree.Proofs.ReadBack.Instructions
import ClassTree.Proofs.ReadBack.KeptCode
import ClassTree.Proofs.ReadBack.Method
import ClassTree.Proofs.ReadBack.ShortForms
import ClassTree.Proofs.ReadBack.Told
import ClassTree.Proofs.ReadBack.Unchanged
import ClassTree.Proofs.Result
import ClassTree.Proofs.Spelling
import ClassTree.Proofs.StackMap
import ClassTree.Proofs.Table
import ClassTree.Proofs.Text.Base64
import ClassTree.Proofs.Text.ModifiedUtf8
import ClassTree.Proofs.Text.Numeral
import ClassTree.Proofs.Text.Utf8
import ClassTree.Proofs.Tree.Body
import ClassTree.Proofs.Tree.Entity
import ClassTree.Proofs.Tree.Labels
import ClassTree.Proofs.Tree.Layout
import ClassTree.Proofs.Tree.Marker
import ClassTree.Proofs.Tree.Part
import ClassTree.Proofs.Tree.Plain
import ClassTree.Proofs.Tree.Raw
import ClassTree.Proofs.Tree.Reading
import ClassTree.Proofs.Tree.Refusal
import ClassTree.Proofs.Tree.Reordering
import ClassTree.Proofs.Tree.RoundTrip
import ClassTree.Proofs.Tree.Sound
import ClassTree.Proofs.Tree.Tagged
import ClassTree.Proofs.VerifiedMaxima
import ClassTree.Proofs.VerifiedStackMap
import ClassTree.Text.Basic
import ClassTree.Text.Digits
import ClassTree.Text.ModifiedUtf8
import ClassTree.Text.Quoted
import ClassTree.Text.Range
import ClassTree.Text.Utf8
import ClassTree.Tree.Event
import ClassTree.Tree.Node
import ClassTree.Tree.OfBody
import ClassTree.Tree.OfClass
import ClassTree.Tree.Part
import ClassTree.Tree.Read
import ClassTree.Tree.ToBody
import ClassTree.Tree.ToClass
import ClassTree.Proofs.Encoding.Whole
import ClassTree.Proofs.Rewriting.Piece
import ClassTree.Proofs.Rewriting.Instructions
import ClassTree.Proofs.Rewriting.Code
import ClassTree.Proofs.Rewriting.Member
import ClassTree.Proofs.Rewriting.ClassFile
