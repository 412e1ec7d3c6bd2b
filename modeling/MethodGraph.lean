import MethodGraph.Arena
import MethodGraph.Binary64.Basic
import MethodGraph.Binary64.Decimal
import MethodGraph.Binary64.Text
import MethodGraph.Bindings
import MethodGraph.BitSet
import MethodGraph.Checked
import MethodGraph.Eval.Error
import MethodGraph.Eval.Host
import MethodGraph.Eval.Machine
import MethodGraph.Eval.Memory
import MethodGraph.Eval.Run
import MethodGraph.Eval.Step
import MethodGraph.Fault
import MethodGraph.Graph.Basic
import MethodGraph.Graph.Dominators
import MethodGraph.Graph.Listing
import MethodGraph.Graph.Loops
import MethodGraph.Graph.Order
import MethodGraph.Graph.Reach
import MethodGraph.Graph.Verify
import MethodGraph.Method.Basic
import MethodGraph.Method.Branch
import MethodGraph.Method.Bytecode
import MethodGraph.Method.Call
import MethodGraph.Method.Compiled
import MethodGraph.Method.Config
import MethodGraph.Method.Connect
import MethodGraph.Method.Emit
import MethodGraph.Method.Error
import MethodGraph.Method.Handler
import MethodGraph.Method.Loop
import MethodGraph.Method.Signature
import MethodGraph.Method.Storage
import MethodGraph.Method.Switch
import MethodGraph.Method.Values
import MethodGraph.Operation
import MethodGraph.Operator
import MethodGraph.Proofs.Calls
import MethodGraph.Proofs.Connecting
import MethodGraph.Proofs.Constructs
import MethodGraph.Proofs.Forest
import MethodGraph.Proofs.Growth
import MethodGraph.Proofs.Handling
import MethodGraph.Proofs.Transactions
import MethodGraph.Proofs.Invariant
import MethodGraph.Proofs.Inversion
import MethodGraph.Proofs.Lawful
import MethodGraph.Proofs.Nesting
import MethodGraph.Proofs.Records
import MethodGraph.Scalar
import MethodGraph.Text.ExtendingMark
import MethodGraph.Text.Ignorable
import MethodGraph.Text.Quoted
import MethodGraph.Text.Ranges
import MethodGraph.Text.Unprintable
import MethodGraph.Total
import MethodGraph.Ty
import MethodGraph.TypeTable
import MethodGraph.Vm.Merge
import MethodGraph.Vm.Operands
import MethodGraph.Vm.Registers
import MethodGraph.Vm.State
import MethodGraph.Proofs.Layout
import MethodGraph.Proofs.Exploring
import MethodGraph.Proofs.Wired
import MethodGraph.Proofs.Bridged
import MethodGraph.Proofs.Verified
import MethodGraph.Proofs.Trace
import MethodGraph.Proofs.Sketch
import MethodGraph.Proofs.Drawn
import MethodGraph.Proofs.Structured
import MethodGraph.Proofs.Coded
import MethodGraph.Proofs.Flow
import MethodGraph.Proofs.Operations
import MethodGraph.Proofs.Simulated
import MethodGraph.Proofs.Postorder
import MethodGraph.Proofs.Dominance
import MethodGraph.Proofs.Programs
import MethodGraph.Proofs.Safety
import MethodGraph.Proofs.Straight
import MethodGraph.Proofs.Merging
import MethodGraph.Proofs.Requests
import MethodGraph.Proofs.Circles
import MethodGraph.Proofs.Settled
import MethodGraph.Proofs.Copies
import MethodGraph.Proofs.Arrivals
import MethodGraph.Proofs.States
import MethodGraph.Proofs.Distinct
import MethodGraph.Proofs.Sharing
import MethodGraph.Proofs.Bytes
import MethodGraph.Proofs.Frames
import MethodGraph.Proofs.Effects
import MethodGraph.Proofs.Images
import MethodGraph.Proofs.RoundTrip
import MethodGraph.Proofs.Renaming
import MethodGraph.Proofs.Relabeled
import MethodGraph.Proofs.Readings
import MethodGraph.Proofs.Relinking
import MethodGraph.Proofs.Pages
import MethodGraph.Proofs.Twins
import MethodGraph.Proofs.Scripts
import MethodGraph.Proofs.FillOrder
import MethodGraph.Proofs.Lines
import MethodGraph.Proofs.Emission
import MethodGraph.Proofs.Aside
import MethodGraph.Proofs.Worklist
import MethodGraph.Proofs.ByteStore
import MethodGraph.Proofs.Suited
import MethodGraph.Proofs.Ranges
import MethodGraph.Proofs.Climbing
import MethodGraph.Proofs.Channels
import MethodGraph.Proofs.Transcripts
import MethodGraph.Proofs.TypeNames
import MethodGraph.Proofs.TypeExtents
import MethodGraph.Proofs.Resolving
import MethodGraph.Proofs.Findings
import MethodGraph.Proofs.Words
import MethodGraph.Proofs.NaturalLoops
import MethodGraph.Proofs.NestedLoops
import MethodGraph.Proofs.Elements
import MethodGraph.Proofs.TopologicalOrder
import MethodGraph.Proofs.NaturalLayout
import MethodGraph.Proofs.Accepted
import MethodGraph.Proofs.Switches
