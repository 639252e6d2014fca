import Dataflow.Node.Basic

/-!
# Free nodes

A node is made from a description or as a copy of another one, and can be completed freely until it
is attached to a function. From then on its operands refuse these edits.
-/

namespace Dataflow

namespace Node

/-- An attached node refuses edits of its operands. -/
def checkFree (n : Node) : Except Violation Unit :=
  if n.parent?.isSome then .error (.attached n.id) else .ok ()

/-- Appends an input. -/
def pushInput (n : Node) (v : Value) : Except Violation Node := do
  n.checkFree
  return { n with inputs := n.inputs ++ [.unlinked v] }

/-- Lets input `i` read `v`. -/
def setInput (n : Node) (i : Nat) (v : Value) : Except Violation Node := do
  n.checkFree
  if i < n.inputs.length then return n.setOperand (.input i) (.unlinked v)
  else throw .outOfRange

/-- Guards the node with `v`. -/
def setPredicate (n : Node) (v : Value) : Except Violation Node := do
  n.checkFree
  return n.setOperand .predicate (.unlinked v)

/-- Appends a result, with or without a type. -/
def addResult (n : Node) (t? : Option TensorType) : Except Violation Node :=
  if n.results.length < maxResults then .ok { n with results := n.results ++ [t?] }
  else .error (.resultLimit n.id n.op)

/-- Assigns a type to result `i`. -/
def setType (n : Node) (i : Nat) (t : TensorType) : Except Violation Node :=
  if i < n.results.length then .ok { n with results := n.results.set i (some t) }
  else .error (.noResultToType n.id n.results.length i)

/-- The description of a node to be made. -/
structure Spec where
  op : Op
  name : String
  inputs : List Value := []
  results : List (Option TensorType) := []
  predicate : Value := .null

/-- Makes the described node. -/
def Spec.build (s : Spec) (id : NodeId) : Except Violation Node :=
  s.results.foldlM addResult
    { id, op := s.op, name := s.name, inputs := s.inputs.map .unlinked
      predicate := .unlinked s.predicate }

/-- A copy that belongs to no function and has no uses. -/
def clone (n : Node) (id : NodeId) : Node where
  id
  op := n.op
  name := n.name
  results := n.results
  inputs := n.inputs.map fun o => .unlinked o.value
  predicate := .unlinked n.predicate.value

end Node

end Dataflow
