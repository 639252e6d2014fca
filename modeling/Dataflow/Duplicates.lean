import Dataflow.Graph.Basic
import Dataflow.Node.Structure
import Std.Data.HashMap

/-!
# Duplicates

Nodes of one function that compute the same from the same values, found in one pass with a table of
the latest node of every structural key.
-/

namespace Dataflow

/-- A pass over nodes: the latest node of each key, and the pairs found so far. -/
structure DuplicateSearch where
  latest : Std.HashMap Node.Key NodeId := ∅
  pairs : Array (NodeId × NodeId) := #[]

/-- Looks at the next node. -/
def DuplicateSearch.visit (s : DuplicateSearch) (n : Node) : DuplicateSearch where
  latest := s.latest.insert n.key n.id
  pairs := match s.latest[n.key]? with
    | none => s.pairs
    | some earlier => s.pairs.push (earlier, n.id)

/-- The pairs of equal nodes in `nodes`, each node with the latest one before it. -/
def duplicatesIn (nodes : List Node) : List (NodeId × NodeId) :=
  (nodes.foldl DuplicateSearch.visit {}).pairs.toList

/-- The pairs of structurally equal nodes of a function, each node with the latest one before it. -/
def Graph.duplicates (g : Graph) (f : FuncId) : Except Refusal (List (NodeId × NodeId)) :=
  (g.nodesOf f).map duplicatesIn

end Dataflow
