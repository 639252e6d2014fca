import Dataflow.Graph.Link
import Dataflow.Node.Draft

/-!
# Changing nodes

The name, the types and the operands of a stored node can be changed one by one. A refused change
leaves the graph as it was.
-/

namespace Dataflow

namespace Graph

/-- Renames a node. -/
def setName (g : Graph) (n : NodeId) (name : String) : Except Refusal Graph := do
  let _ ← g.nodeOrRefusal n
  return g.modifyNode n ({ · with name })

/-- Assigns a type to a result; the nodes that read it are not looked at. -/
def setType (g : Graph) (n : NodeId) (i : Nat) (t : TensorType) : Except Fault Graph := do
  let node ← (g.nodeOrRefusal n).mapError .refused
  let node ← (node.setType i t).mapError .violated
  return g.modifyNode n fun _ => node

/-- Lets input `i` of a node read `v`. -/
def setInput (g : Graph) (n : NodeId) (i : Nat) (v : Value) : Except Fault Graph := do
  let node ← (g.nodeOrRefusal n).mapError .refused
  unless i < node.inputs.length do throw (.violated (.noInput n node.inputs.length i))
  (g.checkReadable n v).mapError .refused
  return g.connect n (.input i) v

/-- Guards a node with `v`, or with nothing when `v` is null. -/
def setPredicate (g : Graph) (n : NodeId) (v : Value) : Except Refusal Graph := do
  let _ ← g.nodeOrRefusal n
  g.checkReadable n v
  return g.connect n .predicate v

/-- Disconnects the given slots of a node. -/
def clearSlots (g : Graph) (n : NodeId) (slots : List Slot) : Graph :=
  slots.foldl (fun g s => g.connect n s .null) g

/-- Disconnects all operands of a node. -/
def clearOperands (g : Graph) (n : NodeId) : Except Refusal Graph := do
  let node ← g.nodeOrRefusal n
  return g.clearSlots n node.slots

end Graph

end Dataflow
