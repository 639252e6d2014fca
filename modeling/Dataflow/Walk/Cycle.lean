import Dataflow.Walk.Basic

/-!
# Operand cycles

A walk that enters every node once meets a node between entering and leaving it exactly when it has
come round a cycle. The nodes met in this way are enough to break every cycle below the roots.
-/

namespace Dataflow

/-- The state of a search for cycles. -/
structure CycleSearch where
  /-- The nodes entered and not yet left. -/
  active : NodeSet := ∅
  /-- The nodes left. -/
  done : NodeSet := ∅
  /-- The nodes at which a cycle closed, in the order in which they were found. -/
  closing : Array NodeId := #[]

namespace CycleSearch

/-- Notes that a cycle closed at a node. -/
def close (s : CycleSearch) (n : NodeId) : CycleSearch :=
  if s.closing.contains n then s else { s with closing := s.closing.push n }

/-- Enters every node once, and notes the active ones it meets again. -/
def walker : Walker CycleSearch where
  accepts _ n s :=
    if s.active.contains n.id then (false, s.close n.id) else (!s.done.contains n.id, s)
  pre _ n s := { s with active := s.active.insert n.id }
  post _ n s := { s with active := s.active.erase n.id, done := s.done.insert n.id }

/-- Goes on from another root. No node is entered twice, so the walk ends. -/
def extend (g : Graph) (s : CycleSearch) (root : NodeId) : CycleSearch :=
  (g.visit walker g.nodeCount root s).getD s

end CycleSearch

/-- The nodes at which an operand cycle closes, searching from each root in turn. -/
def Graph.closingNodes (g : Graph) (roots : List NodeId) : List NodeId :=
  (roots.foldl (CycleSearch.extend g) {}).closing.toList

end Dataflow
