import Dataflow.Node.Basic

/-!
# Structure of nodes

Two nodes are structurally equal when they compute the same from the same values: operation, result
types, predicate and inputs agree. Their names, identities and uses do not matter, and of what they
read only the references do.
-/

namespace Dataflow

namespace Node

/-- What structurally equal nodes have in common: not their names or identities, and of what they
read only the references. -/
structure Key where
  op : Op
  results : List (Option TensorType)
  predicate : Value
  inputs : List Value
deriving DecidableEq, Hashable

/-- The structural key of a node. -/
def key (n : Node) : Key := ⟨n.op, n.results, n.predicate.value, n.inputValues⟩

end Node

end Dataflow
