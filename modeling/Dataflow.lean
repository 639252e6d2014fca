import Dataflow.Diagnosis
import Dataflow.Duplicates
import Dataflow.Node.Layout
import Dataflow.Walk.PostOrder
import Dataflow.Walk.Trace
import Dataflow.Workspace
import Dataflow.Proofs.Lookup
import Dataflow.Proofs.Rewiring
import Dataflow.Proofs.Symmetry
import Dataflow.Proofs.Redirection
import Dataflow.Proofs.RosterOrder
import Dataflow.Proofs.Ownership
import Dataflow.Proofs.Coherence
import Dataflow.Proofs.Erasure
import Dataflow.Proofs.FreeNode
import Dataflow.Proofs.History
import Dataflow.Proofs.UseDef
import Dataflow.Proofs.Lifecycle
import Dataflow.Proofs.CycleSearch
import Dataflow.Proofs.TypingRules
import Dataflow.Proofs.Problems
import Dataflow.Proofs.WellFormed
import Dataflow.Proofs.Verification
import Dataflow.Proofs.UseOrder
import Dataflow.Proofs.Handover
import Dataflow.Proofs.Teardown
import Dataflow.Proofs.Merging
import Dataflow.Proofs.Splice
import Dataflow.Proofs.CycleDiagnosis
import Dataflow.Proofs.PostOrder
import Dataflow.Proofs.WalkRefinement
import Dataflow.Proofs.WalkTermination
import Dataflow.Proofs.SlabSequence
import Dataflow.Proofs.SlabHandles
import Dataflow.Proofs.SlabSweep
import Dataflow.Proofs.UseAging
import Dataflow.Proofs.TokenLife
import Dataflow.Proofs.Refusal
import Dataflow.Proofs.CheckedEdits
import Dataflow.Proofs.InternalChecks
import Dataflow.Proofs.AnyHistory
import Dataflow.Proofs.LinkCheck
import Dataflow.Proofs.Acyclicity
import Dataflow.Proofs.NeutralEdits
import Dataflow.Proofs.FuncOrder
import Dataflow.Proofs.FaultFreeDiagnosis
import Dataflow.Proofs.SlotEdits
import Dataflow.Proofs.Attachment
import Dataflow.Proofs.CloneIsolation
import Dataflow.Proofs.LastingStructure
import Dataflow.Proofs.RosterSequence
import Dataflow.Proofs.MoveBack
import Dataflow.Proofs.TypeGuarantees
import Dataflow.Proofs.TypeText
