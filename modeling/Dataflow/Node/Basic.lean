import Dataflow.Op.Rules
import Dataflow.UseList

/-!
# Nodes

A node has an operation, a name, typed results, operands and the list of its uses. While it belongs
to no function it is a plain value whose operands may be filled freely; from then on they change
through the graph only, which keeps the use lists in step.
-/

namespace Dataflow

/-- What a slot holds: the value it reads, and the token of the record of this use. -/
structure Operand where
  value : Value
  token? : Option Token
deriving DecidableEq, Repr

/-- A slot that reads `v` without a record. -/
def Operand.unlinked (v : Value) : Operand := ⟨v, none⟩

/-- A node of a dataflow graph. -/
structure Node where
  id : NodeId
  op : Op
  name : String
  /-- The types of the results, where they have been assigned. -/
  results : List (Option TensorType) := []
  inputs : List Operand := []
  predicate : Operand := .unlinked .null
  /-- The function the node belongs to. -/
  parent? : Option FuncId := none
  uses : UseList := .empty

namespace Node

/-! ## Operands -/

/-- The values read by the inputs. -/
def inputValues (n : Node) : List Value := n.inputs.map (·.value)

/-- The value read by input `i`. -/
def input (n : Node) (i : Nat) : Except Violation Value :=
  match n.inputs[i]? with
  | some o => .ok o.value
  | none => .error .outOfRange

/-- Every slot with what it holds, the predicate in front. -/
def slotOperands (n : Node) : List (Slot × Operand) :=
  (.predicate, n.predicate) :: n.inputs.mapIdx fun i o => (.input i, o)

/-- Every slot of the node, the predicate in front. -/
def slots (n : Node) : List Slot := n.slotOperands.map (·.1)

/-- What a slot holds, if the node has it. -/
def operand? (n : Node) : Slot → Option Operand
  | .predicate => some n.predicate
  | .input i => n.inputs[i]?

/-- Fills a slot. -/
def setOperand (n : Node) (s : Slot) (o : Operand) : Node :=
  match s with
  | .predicate => { n with predicate := o }
  | .input i => { n with inputs := n.inputs.set i o }

/-- The connected slots with the values they read, the predicate in front. -/
def operands (n : Node) : List (Slot × Value) :=
  n.slotOperands.filterMap fun (s, o) => if o.value.isNull then none else some (s, o.value)

/-- The nodes read by the operands, in the order of the operands. -/
def operandNodes (n : Node) : List NodeId := n.operands.filterMap (·.2.node?)

/-- Whether the node is guarded by a predicate. -/
def hasPredicate (n : Node) : Bool := !n.predicate.value.isNull

/-! ## Results -/

/-- The reference to result `i`. -/
def result (n : Node) (i : Nat) : Except Violation Value :=
  if i < n.results.length then .ok (.result n.id i)
  else .error (.noResult n.id n.results.length i)

/-- The references to all results. -/
def resultValues (n : Node) : List Value := (List.range n.results.length).map (.result n.id)

/-- The type of result `i`, as far as it is assigned. -/
def resultType (n : Node) (i : Nat) : Except Violation (Option TensorType) :=
  match n.results[i]? with
  | some t => .ok t
  | none => .error (.noResultType n.id n.results.length i)

end Node

end Dataflow
