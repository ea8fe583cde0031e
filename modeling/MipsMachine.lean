import MipsMachine.Assembly.Emit
import MipsMachine.Execution.Run
import MipsMachine.Proofs.Assembly.Expansion
import MipsMachine.Proofs.Memory.Stores
import MipsMachine.Proofs.Symbols.Arena
import MipsMachine.Proofs.Assembly.Chunk
import MipsMachine.Proofs.Assembly.Pieces
import MipsMachine.Proofs.Assembly.Layout
import MipsMachine.Proofs.Assembly.Line
import MipsMachine.Proofs.Assembly.Reachable
import MipsMachine.Proofs.Assembly.Footprint
import MipsMachine.Proofs.Assembly.ForwardReference
import MipsMachine.Proofs.Assembly.TwoPass
import MipsMachine.Proofs.Execution.FailedStep
import MipsMachine.Proofs.Execution.Stepping
import MipsMachine.Proofs.Offset
import MipsMachine.Proofs.Assembly.Resolution
import MipsMachine.Proofs.Execution.Invariant
import MipsMachine.Proofs.Symbols.Ledger
import MipsMachine.Proofs.Assembly.Onward
import MipsMachine.Proofs.Execution.Realization
import MipsMachine.Proofs.Execution.Arithmetic
import MipsMachine.Proofs.Execution.PseudoInstruction
import MipsMachine.Proofs.Execution.Placeholder
import MipsMachine.Proofs.Instruction.Fields
import MipsMachine.Proofs.Assembly.Disassembly
import MipsMachine.Proofs.Execution.Iteration
import MipsMachine.Proofs.Execution.Interleaving
import MipsMachine.Proofs.Assembly.Reassembly
import MipsMachine.Proofs.Execution.Trapping
import MipsMachine.Proofs.Memory.Flat
import MipsMachine.Proofs.Execution.Integers
import MipsMachine.Proofs.Statement.Forms
import MipsMachine.Proofs.Statement.Grammar
import MipsMachine.Proofs.Token.Quotation
import MipsMachine.Proofs.Execution.StringData
import MipsMachine.Proofs.Token.Tiling
import MipsMachine.Proofs.Token.Rendering
import MipsMachine.Proofs.Assembly.TextLine
import MipsMachine.Proofs.Checked.Calls
import MipsMachine.Proofs.Assembly.Definitions
import MipsMachine.Proofs.Assembly.DataLine
import MipsMachine.Proofs.Execution.Frame
import MipsMachine.Proofs.Memory.Access
import MipsMachine.Proofs.Execution.Services
import MipsMachine.Proofs.Assembly.Trailing
import MipsMachine.Proofs.Token.Radix
import MipsMachine.Proofs.Offset.Range
import MipsMachine.Proofs.Assembly.Places
import MipsMachine.Proofs.Console.Device
import MipsMachine.Proofs.Execution.Slices
import MipsMachine.Proofs.Statement.Pattern
import MipsMachine.Proofs.Token.OnePass
import MipsMachine.Proofs.Assembly.Descriptor
import MipsMachine.Proofs.Symbols.Listing
