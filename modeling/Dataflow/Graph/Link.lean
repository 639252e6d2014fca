import Dataflow.Graph.Basic

/-!
# Linked slots

A slot that reads a stored node and the record of this use in that node's list belong together: the
slot keeps the token of the record. `Graph.connect` changes both in one step, and every edit of the
operands of stored nodes goes through it.
-/

namespace Dataflow

namespace Graph

/-- The token of the next use of a value; none for values that no stored node can record. -/
def nextToken? (g : Graph) (v : Value) : Option Token :=
  (v.node?.bind g.node?).map (·.uses.nextToken)

/-- Records a use with the node it reads. -/
def recordUse (g : Graph) (u : Use) : Graph :=
  match u.value.node? with
  | none => g
  | some producer => g.modifyNode producer fun n => { n with uses := n.uses.add u }

/-- Takes the record of a slot out of the list of the node that the slot reads. -/
def forgetUse (g : Graph) (o : Operand) : Graph :=
  match o.token?, o.value.node? with
  | some token, some producer =>
    g.modifyNode producer fun n => { n with uses := n.uses.remove token }
  | _, _ => g

/-- What a slot of a stored node holds. -/
def operand? (g : Graph) (user : NodeId) (s : Slot) : Option Operand :=
  (g.node? user).bind (·.operand? s)

/-- Lets a slot read `v`, which is null or a value of a stored node: the record of the old use is
removed, the new use is recorded, and its token goes into the slot. A slot that reads `v` already
keeps its record. -/
def connect (g : Graph) (user : NodeId) (s : Slot) (v : Value) : Graph :=
  match g.operand? user s with
  | none => g
  | some old =>
    if old.value = v then g
    else
      let g := g.forgetUse old
      let token? := g.nextToken? v
      (g.recordUse ⟨user, s, v⟩).modifyNode user (·.setOperand s ⟨v, token?⟩)

/-- A value can be read if it is null or its node is stored. -/
def checkReadable (g : Graph) (user : NodeId) (v : Value) : Except Refusal Unit :=
  if v.node?.all g.contains then .ok () else .error (.danglingOperand user v)

end Graph

end Dataflow
