import Dataflow.Graph.Change
import Dataflow.Graph.Replace

/-!
# Erasing

Erasing a node first disconnects its operands and then the slots that read it, so nodes can be
erased in any order.
-/

namespace Dataflow

namespace Graph

/-- Forgets a node that nothing is connected to. -/
def discard (g : Graph) (f : FuncId) (n : NodeId) : Graph :=
  let g := g.modifyRoster f (·.remove? n)
  { g with nodes := g.nodes.erase n }

/-- Whether a function owns a node. -/
def checkOwned (g : Graph) (f : FuncId) (n : NodeId) : Except Refusal Unit := do
  let func ← g.funcOrRefusal f
  unless func.roster.contains n do throw (.notOwned n f)

/-- Removes a node from its function and from the graph: its operands are disconnected first, then
the slots that read it. -/
def eraseNode (g : Graph) (f : FuncId) (n : NodeId) : Outcome Unit :=
  g.guarded (do g.checkOwned f n; g.clearOperands n) fun g =>
    match g.clearUses n with
    | (g, .error e) => (g, .error e)
    | (g, .ok _) => (g.discard f n, .ok ())

/-- Erases nodes of a function one after the other, up to a failure. -/
def eraseNodes (f : FuncId) : List NodeId → Graph → Outcome Unit
  | [], g => (g, .ok ())
  | n :: nodes, g =>
    match g.eraseNode f n with
    | (g, .error e) => (g, .error e)
    | (g, .ok _) => eraseNodes f nodes g

/-- Erases a function with all of its nodes. -/
def eraseFunc (g : Graph) (f : FuncId) : Outcome Unit :=
  g.guarded (g.funcOrRefusal f) fun func =>
    match eraseNodes f func.nodes g with
    | (g, .error e) => (g, .error e)
    | (g, .ok _) => ({ g with funcs := g.funcs.filter (·.id ≠ f) }, .ok ())

end Graph

end Dataflow
