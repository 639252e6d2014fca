import Dataflow.Graph.Link

/-!
# Attaching nodes

A free node becomes part of a graph when it is attached to a function. All values it reads must be
those of stored nodes; every use is recorded with the node it reads, in the order of the operands.
-/

namespace Dataflow

namespace Graph

/-- Adds an empty function. -/
def addFunc (g : Graph) (f : FuncId) (name : String) : Graph :=
  { g with funcs := g.funcs ++ [{ id := f, name }] }

/-- Records the uses that a node about to be stored makes of other nodes, and lets its slots keep
the tokens. -/
def linkOperands : List (Slot × Value) → Graph → Node → Graph × Node
  | [], g, n => (g, n)
  | (s, v) :: operands, g, n =>
    linkOperands operands (g.recordUse ⟨n.id, s, v⟩) (n.setOperand s ⟨v, g.nextToken? v⟩)

/-- Whether a node may be attached to a function before another node. -/
def checkAttach (g : Graph) (f : FuncId) (n : Node) (before? : Option NodeId) :
    Except Refusal Unit := do
  let func ← g.funcOrRefusal f
  if let some parent := n.parent? then throw (.alreadyAttached n.id parent)
  if let some before := before? then
    unless func.roster.contains before do throw (.notOwned before f)
  n.operands.forM fun (_, v) => g.checkReadable n.id v

/-- Stores a node whose operands can be read, and lists it before another node or at the end. -/
def store (g : Graph) (f : FuncId) (n : Node) (before? : Option NodeId) : Graph :=
  let (g, n) := linkOperands n.operands g { n with parent? := some f }
  { g with nodes := g.nodes.insert n.id n }.modifyRoster f (·.insert? n.id before?)

/-- Attaches a free node to a function, before another node or at the end. -/
def attach (g : Graph) (f : FuncId) (n : Node) (before? : Option NodeId) :
    Except Refusal Graph := do
  g.checkAttach f n before?
  return g.store f n before?

end Graph

end Dataflow
