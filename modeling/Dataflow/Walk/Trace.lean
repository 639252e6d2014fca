import Dataflow.Walk.Basic

/-!
# Traces

A trace is the list of the calls made during a walk. `Graph.trace` walks under a policy that refuses
some nodes, and stops entering nodes after a given number.
-/

namespace Dataflow

/-- What happened at a node of a walk. -/
inductive Call where
  | pre
  | post
  | skip
deriving DecidableEq, Repr

/-- The name of a call. -/
def Call.text : Call → String
  | pre => "pre"
  | post => "post"
  | skip => "skip"

/-- A call at a node, reached from a parent. -/
structure Event where
  call : Call
  node : NodeId
  parent? : Option NodeId
deriving DecidableEq, Repr

/-- Which nodes a walk enters. -/
inductive Policy where
  | all
  /-- Not the nodes entered before. -/
  | once
  /-- Not from a node of one function into another function. -/
  | sameFunction
  /-- Not the nodes with side effects. -/
  | pure
deriving DecidableEq, Repr

/-- Every policy. -/
def Policy.every : List Policy := [.all, .once, .sameFunction, .pure]

/-- The name of a policy. -/
def Policy.text : Policy → String
  | all => "all"
  | once => "once"
  | sameFunction => "same_function"
  | pure => "pure"

/-- The policy with a given name. -/
def Policy.ofText? (s : String) : Option Policy := every.find? (·.text == s)

/-- A trace under construction. -/
structure Trace where
  accepted : Nat := 0
  entered : NodeSet := ∅
  events : Array Event := #[]

namespace Trace

/-- Appends an event. -/
def record (s : Trace) (call : Call) (parent? : Option Node) (n : Node) : Trace :=
  { s with events := s.events.push ⟨call, n.id, parent?.map (·.id)⟩ }

/-- Whether a policy lets the walk enter a node. -/
def allows (s : Trace) (parent? : Option Node) (n : Node) : Policy → Bool
  | .all => true
  | .once => !s.entered.contains n.id
  | .sameFunction => parent?.all (·.parent? == n.parent?)
  | .pure => !n.op.signature.sideEffects

/-- Records every call, entering at most `limit` nodes, none of `skip` and only what the policy
allows. -/
def walker (policy : Policy) (limit : Nat) (skip : List NodeId) : Walker Trace where
  accepts parent? n s :=
    if s.accepted < limit && !skip.contains n.id && s.allows parent? n policy then
      (true, { s with accepted := s.accepted + 1 })
    else (false, s.record .skip parent? n)
  pre parent? n s := { s.record .pre parent? n with entered := s.entered.insert n.id }
  post parent? n s := s.record .post parent? n

end Trace

namespace Graph

/-- The calls made by a walk from `root`. -/
def trace (g : Graph) (policy : Policy) (limit : Nat) (skip : List NodeId) (root : NodeId) :
    List Event :=
  ((g.visit (Trace.walker policy limit skip) limit root {}).getD {}).events.toList

/-- The nodes of an unrestricted walk in the order of entering; nothing on a cyclic graph. -/
def entries? (g : Graph) (root : NodeId) : Option (Array NodeId) :=
  g.visit { pre := fun _ n s => s.push n.id } g.pathBound root #[]

/-- The nodes of an unrestricted walk in the order of leaving; nothing on a cyclic graph. -/
def exits? (g : Graph) (root : NodeId) : Option (Array NodeId) :=
  g.visit { post := fun _ n s => s.push n.id } g.pathBound root #[]

end Graph

end Dataflow
