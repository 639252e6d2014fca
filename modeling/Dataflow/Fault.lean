import Dataflow.Op.Basic
import Dataflow.Reference

/-!
# Faults

An operation on nodes or graphs can fail for two kinds of reason. When an identity does not resolve
as required, the operation is refused (`Refusal`) and leaves everything as it was. A caller who
breaks the contract of an operation, by an index out of range for instance, commits a `Violation`.
-/

namespace Dataflow

/-- Why an operation on a graph is refused: an identity does not resolve as required. -/
inductive Refusal where
  | unknownNode (node : NodeId)
  | unknownFunc (func : FuncId)
  | notOwned (node : NodeId) (func : FuncId)
  | alreadyAttached (node : NodeId) (func : FuncId)
  | danglingOperand (node : NodeId) (value : Value)
  | invalidRange (func : FuncId) (first last : NodeId)
deriving DecidableEq, Repr

/-- What is said about a refusal. -/
def Refusal.message : Refusal → String
  | unknownNode n => "node " ++ n.text ++ " does not exist in this module"
  | unknownFunc f => "function " ++ f.text ++ " does not exist in this module"
  | notOwned n f => "node " ++ n.text ++ " is not owned by function " ++ f.text
  | alreadyAttached n f => "node " ++ n.text ++ " is already attached to function " ++ f.text
  | danglingOperand n v =>
    "operand " ++ v.text ++ " of node " ++ n.text ++ " refers to a node outside this module"
  | invalidRange f first last =>
    "range " ++ first.text ++ "..=" ++ last.text ++
      " is not a contiguous forward range of function " ++ f.text

/-- A position among the operands of a node. -/
inductive Slot where
  | predicate
  | input (index : Nat)
deriving DecidableEq, Hashable, Repr

/-- The name of a slot in diagnoses. -/
def Slot.label : Slot → String
  | predicate => "Predicate"
  | input i => "Input(" ++ Nat.repr i ++ ")"

/-- A broken contract. -/
inductive Violation where
  /-- An operand of an attached node was edited other than through its graph. -/
  | attached (node : NodeId)
  | resultLimit (node : NodeId) (op : Op)
  | noResult (node : NodeId) (count index : Nat)
  | noResultType (node : NodeId) (count index : Nat)
  | noResultToType (node : NodeId) (count index : Nat)
  | noInput (node : NodeId) (count index : Nat)
  | unnamedInput (op : Op) (index : Nat)
  | unnamedResult (op : Op) (index : Nat)
  /-- The replacement `new` has no result to take over the uses of that of `old`. -/
  | noCounterpart (new : NodeId) (index : Nat) (old : NodeId)
  /-- A use record does not say what its slot reads. -/
  | staleRecord (slot : Slot) (user : NodeId)
  /-- A plain list access out of range, which has no text of its own. -/
  | outOfRange
deriving DecidableEq, Repr

/-- The largest number of results of a node. -/
def maxResults : Nat := 6

/-- What is said about a broken contract. -/
def Violation.message : Violation → String
  | attached n => n.text ++ " is attached; edit its operands through the module"
  | resultLimit n op =>
    n.text ++ " (" ++ op.text ++ ") cannot have more than " ++ Nat.repr maxResults ++ " results"
  | noResult n count i => n.text ++ " has " ++ Nat.repr count ++ " results, asked for " ++ Nat.repr i
  | noResultType n count i =>
    n.text ++ " has " ++ Nat.repr count ++ " results, asked for the type of " ++ Nat.repr i
  | noResultToType n count i =>
    n.text ++ " has " ++ Nat.repr count ++ " results, cannot type result " ++ Nat.repr i
  | noInput n count i =>
    n.text ++ " has " ++ Nat.repr count ++ " inputs, cannot set input " ++ Nat.repr i
  | unnamedInput op i => op.text ++ " has no input " ++ Nat.repr i
  | unnamedResult op i => op.text ++ " has no result " ++ Nat.repr i
  | noCounterpart new i old =>
    new.text ++ " has no result " ++ Nat.repr i ++ " to take over uses of " ++ old.text
  | staleRecord slot user =>
    "slot " ++ slot.label ++ " of " ++ user.text ++ " no longer holds the recorded value"
  | outOfRange => "index out of range"

/-- Why an operation failed. -/
inductive Fault where
  | refused (reason : Refusal)
  | violated (contract : Violation)
deriving DecidableEq, Repr

namespace Op

/-- The name of an input that a node of this operation can have. -/
def inputName (op : Op) (i : Nat) : Except Violation String :=
  match op.inputName? i with
  | some name => .ok name
  | none => .error (.unnamedInput op i)

/-- The name of a result of this operation. -/
def resultName (op : Op) (i : Nat) : Except Violation String :=
  match op.resultName? i with
  | some name => .ok name
  | none => .error (.unnamedResult op i)

end Op

end Dataflow
