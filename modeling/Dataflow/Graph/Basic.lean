import Dataflow.Node.Basic
import Dataflow.Roster

/-!
# Graphs

A graph stores nodes and the functions that own them. Every function lists its nodes in order; the
nodes of all functions are stored together, so an operand may read a node of another function.
-/

namespace Dataflow

/-- A named, ordered collection of nodes. -/
structure Func where
  id : FuncId
  name : String
  roster : Roster := .empty

/-- The nodes of a function in order. -/
def Func.nodes (f : Func) : List NodeId := f.roster.toList

/-- A dataflow graph. -/
structure Graph where
  nodes : NodeMap Node := ∅
  /-- The functions in order of creation. -/
  funcs : List Func := []

namespace Graph

/-- The graph without functions. -/
def empty : Graph := {}

/-! ## Lookup -/

/-- The stored node with identity `n`. -/
def node? (g : Graph) (n : NodeId) : Option Node := g.nodes[n]?

/-- Whether a node is stored. -/
def contains (g : Graph) (n : NodeId) : Bool := g.nodes.contains n

/-- The number of stored nodes. -/
def nodeCount (g : Graph) : Nat := g.nodes.size

/-- The function with identity `f`. -/
def func? (g : Graph) (f : FuncId) : Option Func := g.funcs.find? (·.id = f)

/-- The stored node with identity `n`, or the error that there is none. -/
def nodeOrRefusal (g : Graph) (n : NodeId) : Except Refusal Node :=
  match g.node? n with
  | some node => .ok node
  | none => .error (.unknownNode n)

/-- The function with identity `f`, or the error that there is none. -/
def funcOrRefusal (g : Graph) (f : FuncId) : Except Refusal Func :=
  match g.func? f with
  | some func => .ok func
  | none => .error (.unknownFunc f)

/-- The nodes of a function in order. -/
def nodesOf (g : Graph) (f : FuncId) : Except Refusal (List Node) :=
  (g.funcOrRefusal f).map fun func => func.nodes.filterMap g.node?

/-! ## Uses and types -/

/-- The records of the uses of a value; none for the null reference and for nodes not stored. -/
def usesOf (g : Graph) (v : Value) : List Use :=
  match v.node?.bind g.node? with
  | some n => n.uses.usesOf v.index
  | none => []

/-- The records of the uses of all results of a node. -/
def allUses (g : Graph) (n : NodeId) : List Use :=
  match g.node? n with
  | some node => node.uses.toList
  | none => []

/-- Whether a value has exactly one use. -/
def isUsedOnce (g : Graph) (v : Value) : Bool := (g.usesOf v).length == 1

/-- The type of a value, where its node is stored and its type assigned. The node must have the
result referred to. -/
def typeOf (g : Graph) (v : Value) : Except Violation (Option TensorType) :=
  match v.node?.bind g.node? with
  | some n => n.resultType v.index
  | none => .ok none

/-! ## Storing -/

/-- Changes a stored node. -/
def modifyNode (g : Graph) (n : NodeId) (f : Node → Node) : Graph :=
  { g with nodes := g.nodes.modify n f }

/-- Changes the roster of a function, unless the change is refused. -/
def modifyRoster (g : Graph) (f : FuncId) (change : Roster → Option Roster) : Graph :=
  { g with
    funcs := g.funcs.map fun func =>
      if func.id = f then { func with roster := (change func.roster).getD func.roster } else func }

end Graph

end Dataflow
