import RopeBridge.Main
import RopeBridge.Session.Run
import RopeBridge.Proofs.Encoding.Characters
import RopeBridge.Proofs.Encoding.Scan
import RopeBridge.Proofs.Encoding.Utf8
import RopeBridge.Proofs.Encoding.Extension
import RopeBridge.Proofs.Encoding.Scalar
import RopeBridge.Proofs.Encoding.Boundary
import RopeBridge.Proofs.Encoding.Pass
import RopeBridge.Proofs.Rope.Ledger
import RopeBridge.Proofs.Rope.Query
import RopeBridge.Proofs.Rope.Content
import RopeBridge.Proofs.Rope.Metadata
import RopeBridge.Proofs.Rope.Build
import RopeBridge.Proofs.Rope.Run
import RopeBridge.Proofs.Rope.Client
import RopeBridge.Proofs.Rope.Indexing
import RopeBridge.Proofs.Rope.Concatenation
import RopeBridge.Proofs.Rope.Shape
import RopeBridge.Proofs.Rope.Passes
import RopeBridge.Proofs.Rope.Scanning
import RopeBridge.Proofs.Rope.Thrift
import RopeBridge.Proofs.Native.Text
import RopeBridge.Proofs.OwnedString.Primitives
import RopeBridge.Proofs.OwnedString.Run
import RopeBridge.Proofs.Handle.Blocks
import RopeBridge.Proofs.Handle.Allocation
import RopeBridge.Proofs.Handle.Release
import RopeBridge.Proofs.Heap.Later
import RopeBridge.Proofs.Handle.Interned
import RopeBridge.Proofs.Handle.Sound
import RopeBridge.Proofs.Bridge.History
import RopeBridge.Proofs.Bridge.Handles
import RopeBridge.Proofs.Heap.Edit
import RopeBridge.Proofs.Handle.Faithful
import RopeBridge.Proofs.Handle.Places
import RopeBridge.Proofs.Handle.Permanent
import RopeBridge.Proofs.System.Basic
import RopeBridge.Proofs.Bridge.Resolving
import RopeBridge.Proofs.System.Acts
import RopeBridge.Proofs.Bridge.Calls
import RopeBridge.Proofs.System.Sound
import RopeBridge.Proofs.System.Execution
import RopeBridge.Proofs.System.Operations
import RopeBridge.Proofs.Bridge.Identity
import RopeBridge.Proofs.System.RoundTrip
import RopeBridge.Proofs.System.Marks
import RopeBridge.Proofs.System.Pins
import RopeBridge.Proofs.Lock.Interleaving
import RopeBridge.Proofs.Lock.Waits
import RopeBridge.Proofs.Native.Custody
import RopeBridge.Proofs.OwnedString.Calls
import RopeBridge.Proofs.OwnedString.Buffers
import RopeBridge.Proofs.OwnedString.Holdings
import RopeBridge.Proofs.OwnedString.Storage
import RopeBridge.Proofs.OwnedString.Transparency
import RopeBridge.Proofs.Heap.Sharing
import RopeBridge.Proofs.System.Exposure
import RopeBridge.Proofs.System.Permanence
import RopeBridge.Proofs.Encoding.Decoding
import RopeBridge.Proofs.Handle.Census
import RopeBridge.Proofs.Handle.Sweep
import RopeBridge.Proofs.System.Accounts
import RopeBridge.Proofs.OwnedString.Standing
import RopeBridge.Proofs.OwnedString.Lengths
import RopeBridge.Proofs.Native.Invariant
import RopeBridge.Proofs.Heap.Walk
import RopeBridge.Proofs.Finalization.Once
import RopeBridge.Proofs.OwnedString.Knowledge
import RopeBridge.Proofs.OwnedString.Failure
import RopeBridge.Proofs.Marking.Runs
import RopeBridge.Proofs.System.Words
import RopeBridge.Proofs.Rope.Equality
import RopeBridge.Proofs.Rope.Lengths
import RopeBridge.Proofs.System.Interning
import RopeBridge.Proofs.Encoding.Counting
import RopeBridge.Proofs.CommandLine.Flags
import RopeBridge.Proofs.Rope.Outline
import RopeBridge.Proofs.Lock.Safepoints
import RopeBridge.Proofs.Bridge.Waiting
