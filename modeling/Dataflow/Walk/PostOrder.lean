import Dataflow.Walk.Basic

/-!
# Post order

The nodes below some roots, every node once and after the nodes it reads, as far as there are no
cycles. The walk can be confined to the nodes of one function.
-/

namespace Dataflow

/-- A post order under construction. -/
structure PostOrder where
  visited : NodeSet := ∅
  /-- The nodes left so far, in the order in which they were left. -/
  order : Array NodeId := #[]

namespace PostOrder

/-- Enters every node once, and only nodes of the function `scope?` if there is one. -/
def walker (scope? : Option FuncId) : Walker PostOrder where
  accepts _ n s := ((scope?.isNone || n.parent? == scope?) && !s.visited.contains n.id, s)
  pre _ n s := { s with visited := s.visited.insert n.id }
  post _ n s := { s with order := s.order.push n.id }

/-- Goes on from another root. No node is entered twice, so the walk ends. -/
def extend (g : Graph) (scope? : Option FuncId) (s : PostOrder) (root : NodeId) : PostOrder :=
  (g.visit (walker scope?) g.nodeCount root s).getD s

end PostOrder

namespace Graph

/-- The nodes below `root`, which comes last. -/
def postOrder (g : Graph) (root : NodeId) : List NodeId :=
  (PostOrder.extend g none {} root).order.toList

/-- The nodes of a function, each after those of its operands that belong to the function. -/
def funcPostOrder (g : Graph) (f : FuncId) : Except Refusal (List NodeId) :=
  (g.funcOrRefusal f).map fun func =>
    (func.nodes.foldl (PostOrder.extend g (some f)) {}).order.toList

/-- The post order after each of several roots visited in turn. -/
def postOrders (g : Graph) (scope? : Option FuncId) (roots : List NodeId) : List (List NodeId) :=
  go {} roots
where
  /-- The post orders after each of the remaining roots. -/
  go (s : PostOrder) : List NodeId → List (List NodeId)
    | [] => []
    | root :: roots =>
      let s := PostOrder.extend g scope? s root
      s.order.toList :: go s roots

end Graph

end Dataflow
