import Dataflow.Graph.Basic

/-!
# Walks

A walk starts at a node and goes down to the nodes its operands read, the predicate first and then
the inputs. A `Walker` is called before and after the operands of every node it enters, and decides
at each node it meets whether to enter; its state is its own. Nothing else keeps a walk from meeting
a node again, so on a cyclic graph it ends only if the walker refuses to go on.

The walk keeps its pending tasks on a stack. Since only entering a node adds tasks, it is enough to
bound the number of nodes entered: `Graph.visit` is given such a bound and answers nothing if the
walker wants to enter more.
-/

namespace Dataflow

/-- The calls made during a walk. Each is given the node whose operand led here, if any, and the
node met. -/
structure Walker (σ : Type) where
  /-- Whether to enter the node. -/
  accepts : Option Node → Node → σ → Bool × σ := fun _ _ s => (true, s)
  /-- Called on entering a node. -/
  pre : Option Node → Node → σ → σ := fun _ _ s => s
  /-- Called when the walks from all operands of a node are done. -/
  post : Option Node → Node → σ → σ := fun _ _ s => s

/-- What remains to be done at a node. -/
inductive Task where
  | enter (parent? : Option NodeId) (node : NodeId)
  | leave (parent? : Option NodeId) (node : NodeId)
deriving DecidableEq, Repr

/-- How a stack of tasks goes on: to its end, or to a node that is entered. -/
inductive Progress (σ : Type) where
  | finished (state : σ)
  | entered (tasks : List Task) (state : σ)

namespace Walker

variable {σ : Type}

/-- Works off tasks up to the next node that is entered. -/
def proceed (w : Walker σ) (g : Graph) : List Task → σ → Progress σ
  | [], s => .finished s
  | .leave parent? n :: tasks, s =>
    match g.node? n with
    | none => w.proceed g tasks s
    | some node => w.proceed g tasks (w.post (parent?.bind g.node?) node s)
  | .enter parent? n :: tasks, s =>
    match g.node? n with
    | none => w.proceed g tasks s
    | some node =>
      match w.accepts (parent?.bind g.node?) node s with
      | (false, s) => w.proceed g tasks s
      | (true, s) =>
        .entered (node.operandNodes.map (.enter (some n)) ++ .leave parent? n :: tasks)
          (w.pre (parent?.bind g.node?) node s)

/-- Works off all tasks, entering at most `bound` nodes. -/
def run (w : Walker σ) (g : Graph) (bound : Nat) (tasks : List Task) (s : σ) : Option σ :=
  match w.proceed g tasks s with
  | .finished s => some s
  | .entered tasks s =>
    match bound with
    | 0 => none
    | bound + 1 => w.run g bound tasks s

end Walker

/-- Walks from `root`, entering at most `bound` nodes. -/
def Graph.visit {σ : Type} (g : Graph) (w : Walker σ) (bound : Nat) (root : NodeId) (s : σ) :
    Option σ :=
  w.run g bound [.enter none root] s

/-- More than the number of operand paths from any node of an acyclic graph: paths have fewer edges
than there are nodes, and at every node the choice is among its operands. -/
def Graph.pathBound (g : Graph) : Nat :=
  let degree := g.nodes.toList.foldl (fun d (_, n) => Nat.max d n.operands.length) 0
  Nat.pow (degree + 1) g.nodeCount

end Dataflow
