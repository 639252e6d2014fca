import Dataflow.Graph.Basic

/-!
# Moving nodes

A range of nodes can be moved from one function to another, or within one function. Only the rosters
and the parents change.
-/

namespace Dataflow

namespace Graph

/-- The nodes from `first` to `last` of a function, if they can be moved before `before?` into the
function `target`. -/
def checkMove (g : Graph) (source : FuncId) (first last : NodeId) (target : FuncId)
    (before? : Option NodeId) : Except Refusal (List NodeId) := do
  let giver ← g.funcOrRefusal source
  let taker ← g.funcOrRefusal target
  unless giver.roster.contains first do throw (.notOwned first source)
  unless giver.roster.contains last do throw (.notOwned last source)
  let some range := giver.roster.range? first last | throw (.invalidRange source first last)
  if let some before := before? then
    unless taker.roster.contains before do throw (.notOwned before target)
    if source = target ∧ before ∈ range then throw (.invalidRange source first last)
  return range

/-- Moves nodes from one function into another. -/
def move (g : Graph) (nodes : List NodeId) (source target : FuncId) (before? : Option NodeId) :
    Graph :=
  let g := nodes.foldl (fun g n => g.modifyRoster source (·.remove? n)) g
  let g := nodes.foldl (fun g n => g.modifyRoster target (·.insert? n before?)) g
  nodes.foldl (fun g n => g.modifyNode n ({ · with parent? := some target })) g

/-- Moves the nodes from `first` to `last` of one function into another or elsewhere into the same
one, before another node or at the end. Answers the number of moved nodes. -/
def moveRange (g : Graph) (source : FuncId) (first last : NodeId) (target : FuncId)
    (before? : Option NodeId) : Except Refusal (Graph × Nat) := do
  let nodes ← g.checkMove source first last target before?
  return (g.move nodes source target before?, nodes.length)

end Graph

end Dataflow
