import Intcode.Main
import Intcode.Proofs.Assembly.Frame
import Intcode.Proofs.Assembly.OnePass
import Intcode.Proofs.Assembly.Resolution
import Intcode.Proofs.Assembly.Termination
import Intcode.Proofs.InstructionText
import Intcode.Proofs.Streams.Effects
import Intcode.Proofs.Streams.Moves
import Intcode.Proofs.Streams.Ledger
import Intcode.Proofs.Streams.Independence
import Intcode.Proofs.Machine.Conduct
import Intcode.Proofs.Machine.DefaultOutput
import Intcode.Proofs.Streams.Chunking
import Intcode.Proofs.Machine.Chunking
import Intcode.Proofs.Machine.Reachable
import Intcode.Proofs.Assembly.Composition
import Intcode.Proofs.Machine.Faults
import Intcode.Proofs.Machine.Footprint
import Intcode.Proofs.Machine.Outcomes
import Intcode.Proofs.Assembly.LabelHistory
import Intcode.Proofs.Machine.VectorCall
import Intcode.Proofs.Machine.Nesting
import Intcode.Proofs.InstructionCode
import Intcode.Proofs.Machine.Switch
import Intcode.Proofs.Machine.Formatter
import Intcode.Proofs.Machine.ReadNumber
import Intcode.Proofs.Bytes
import Intcode.Proofs.PackedString
import Intcode.Proofs.Assembly.Incremental
import Intcode.Proofs.Assembly.Sources
import Intcode.Proofs.Machine.CloseOrder
import Intcode.Proofs.Machine.Handles
import Intcode.Proofs.Machine.Leftovers
import Intcode.Proofs.Machine.Prompts
import Intcode.Proofs.Machine.Trace
import Intcode.Proofs.CommandLine
import Intcode.Proofs.Printer
import Intcode.Proofs.Truncation
import Intcode.Proofs.Assembly.Growth
import Intcode.Proofs.Machine.Digits
import Intcode.Proofs.Stores
