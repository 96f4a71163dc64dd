import TaintFlow.Proofs.Actions
import TaintFlow.Proofs.Dump.Listing
import TaintFlow.Proofs.Dump.Slices
import TaintFlow.Proofs.Dump.Truncation
import TaintFlow.Proofs.Fault.Outcomes
import TaintFlow.Proofs.Fault.Recovery
import TaintFlow.Proofs.Fault.Registration
import TaintFlow.Proofs.Inline.Agreement
import TaintFlow.Proofs.Inline.Backends
import TaintFlow.Proofs.Inline.Calls
import TaintFlow.Proofs.Inline.Emission
import TaintFlow.Proofs.Inline.Execution
import TaintFlow.Proofs.Inline.Failures
import TaintFlow.Proofs.Inline.Interleaving
import TaintFlow.Proofs.Inline.Isolation
import TaintFlow.Proofs.Inline.Meaning
import TaintFlow.Proofs.Inline.Requests
import TaintFlow.Proofs.Inline.Retries
import TaintFlow.Proofs.Inline.Words
import TaintFlow.Proofs.Leak.InitialStack
import TaintFlow.Proofs.Leak.Instrumentation
import TaintFlow.Proofs.Leak.Provenance
import TaintFlow.Proofs.Leak.Sinks
import TaintFlow.Proofs.Plan.Blocks
import TaintFlow.Proofs.Plan.Branches
import TaintFlow.Proofs.Plan.Footprint
import TaintFlow.Proofs.Plan.Gaps
import TaintFlow.Proofs.Plan.Loads
import TaintFlow.Proofs.Plan.Moves
import TaintFlow.Proofs.Plan.PushPop
import TaintFlow.Proofs.Plan.Selection
import TaintFlow.Proofs.Plan.Stores
import TaintFlow.Proofs.Plan.TagFamilies
import TaintFlow.Proofs.Plan.TagMaps
import TaintFlow.Proofs.Plan.Unions
import TaintFlow.Proofs.Shadow.Consistency
import TaintFlow.Proofs.Shadow.History
import TaintFlow.Proofs.Shadow.Marking
import TaintFlow.Proofs.Shadow.Mirrors
import TaintFlow.Proofs.Shadow.Reachability
import TaintFlow.Proofs.Shadow.Residency
import TaintFlow.Proofs.Shadow.Translation
import TaintFlow.Proofs.Tracker.CurrentThread
import TaintFlow.Proofs.Tracker.Lifecycle
import TaintFlow.Proofs.Tracker.References
import TaintFlow.Tracker.Diagnostic
