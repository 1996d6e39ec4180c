import ScriptCore.Main
import ScriptCore.Session
import ScriptCore.Proofs.Reachability
import ScriptCore.Proofs.Counting
import ScriptCore.Proofs.Exploring
import ScriptCore.Proofs.Tracing
import ScriptCore.Proofs.Reclaiming
import ScriptCore.Proofs.Collection
import ScriptCore.Proofs.Exposure
import ScriptCore.Proofs.Run
import ScriptCore.Proofs.RunInvariant
import ScriptCore.Proofs.Recollection
import ScriptCore.Proofs.CallFrames
import ScriptCore.Proofs.Escape
import ScriptCore.Proofs.Typing
import ScriptCore.Proofs.Conduct
import ScriptCore.Proofs.Calls
import ScriptCore.Proofs.Attributes
import ScriptCore.Proofs.Operations
import ScriptCore.Proofs.Evaluation
import ScriptCore.Proofs.Scoping
import ScriptCore.Proofs.CallingConvention
import ScriptCore.Proofs.ClassAttributes
import ScriptCore.Proofs.InstanceAttributes
import ScriptCore.Proofs.ItemChanges
import ScriptCore.Proofs.Pooling
import ScriptCore.Proofs.Failures
import ScriptCore.Proofs.KeyedEntries
import ScriptCore.Proofs.Changes
import ScriptCore.Proofs.Dicts
import ScriptCore.Proofs.Evolution
import ScriptCore.Proofs.ReservedNames
import ScriptCore.Proofs.Unfolding
import ScriptCore.Proofs.Assembly
import ScriptCore.Proofs.Clearing
import ScriptCore.Proofs.Cycles
import ScriptCore.Proofs.ClearingOrder
import ScriptCore.Proofs.Degrees
import ScriptCore.Proofs.Retention
import ScriptCore.Proofs.Captures
import ScriptCore.Proofs.PlainData
import ScriptCore.Proofs.Slicing
import ScriptCore.Proofs.ListChanges
import ScriptCore.Proofs.KeyHashing
import ScriptCore.Proofs.Passes
import ScriptCore.Proofs.Collation
import ScriptCore.Proofs.Offences
import ScriptCore.Proofs.Representation
import ScriptCore.Proofs.Documents
import ScriptCore.Proofs.Stopping
import ScriptCore.Proofs.Invocation
import ScriptCore.Proofs.Inheritance
import ScriptCore.Proofs.Pools
import ScriptCore.Proofs.AttributeBuiltins
import ScriptCore.Proofs.TextOrder
import ScriptCore.Proofs.ScalarOrder
import ScriptCore.Proofs.BuiltinTable
