import Dataflow.Graph.Link

/-!
# Replacing uses

The uses of a value, or of all results of a node, can be handed over to others. The slots are
redirected one after another, in the order in which their uses were recorded. A violation stops this
half way, so these edits return the graph they leave together with their outcome.
-/

namespace Dataflow

namespace Graph

/-- Lets the slots named by records of `producer` read other values, one record after the other:
a slot that reads result `i` reads `goal i` from then on. The tokens were collected before; a record
that is gone in the meantime is passed over. Answers how many slots were changed, counted from
`count`. A violation stops the redirection where it is. -/
def redirect (producer : NodeId) (goal : Nat → Except Violation Value) :
    List Token → Graph → Nat → Graph × Except Violation Nat
  | [], g, count => (g, .ok count)
  | token :: tokens, g, count =>
    match (g.node? producer).bind (·.uses.get? token) with
    | none => redirect producer goal tokens g count
    | some u =>
      match g.node? u.user with
      | none => (g, .error (.staleRecord u.slot u.user))
      | some user =>
        match user.operand? u.slot with
        | none => (g, .error .outOfRange)
        | some o =>
          if o.value ≠ u.value then (g, .error (.staleRecord u.slot u.user))
          else
            match goal u.value.index with
            | .error e => (g, .error e)
            | .ok v => redirect producer goal tokens (g.connect u.user u.slot v) (count + 1)

/-- The outcome of an edit together with the graph it leaves. -/
abbrev Outcome (α : Type) := Graph × Except Fault α

/-- Runs an edit if a check passes; otherwise the graph stays as it is. -/
def guarded {α β : Type} (g : Graph) (check : Except Refusal α) (edit : α → Outcome β) :
    Outcome β :=
  match check with
  | .error e => (g, .error (.refused e))
  | .ok a => edit a

/-- Redirects the slots of the collected records of `producer`. -/
def redirectUses (g : Graph) (producer : NodeId) (tokens : List Token)
    (goal : Nat → Except Violation Value) : Outcome Nat :=
  let (g, count) := redirect producer goal tokens g 0
  (g, count.mapError .violated)

/-- Lets every slot that reads `source` read `target` instead, which may be null. Answers the
number of changed slots. -/
def replaceUses (g : Graph) (source target : Value) : Outcome Nat :=
  match source with
  | .null => (g, .ok 0)
  | .result producer i =>
    g.guarded (do
      let node ← g.nodeOrRefusal producer
      g.checkReadable producer target
      return node.uses.tokensOf i)
    fun tokens =>
      if source = target then (g, .ok 0)
      else g.redirectUses producer tokens fun _ => .ok target

/-- Lets every slot that reads a result of `old` read the same result of `new` instead. It is a
violation if `new` has no such result. -/
def replaceNode (g : Graph) (old new : NodeId) : Outcome Nat :=
  g.guarded (do
    let node ← g.nodeOrRefusal old
    let replacement ← g.nodeOrRefusal new
    return (node.uses.tokensOf none, replacement.results.length))
  fun (tokens, count) =>
    if old = new then (g, .ok 0)
    else g.redirectUses old tokens fun i =>
      if i < count then .ok (.result new i) else .error (.noCounterpart new i old)

/-- Disconnects every slot that reads a result of a node. Answers the number of changed slots. -/
def clearUses (g : Graph) (n : NodeId) : Outcome Nat :=
  g.guarded (g.nodeOrRefusal n) fun node =>
    g.redirectUses n (node.uses.tokensOf none) fun _ => .ok .null

end Graph

end Dataflow
