import Dataflow.Graph.Attach
import Dataflow.Graph.Erase
import Dataflow.Graph.Move

/-!
# Workspaces

A workspace is a graph together with what surrounds it: the free nodes that have been made but not
attached, and the supply of identities. Everything that changes a workspace is an `Edit`, so a
history is a list of edits (`Workspace.run`). Identities are given out in sequence and never again.
-/

namespace Dataflow

/-- A graph under construction. -/
structure Workspace where
  graph : Graph := {}
  /-- The free nodes. -/
  drafts : NodeMap Node := ∅
  /-- The number of the next node. -/
  nextNode : Nat := 0
  /-- The number of the next function. -/
  nextFunc : Nat := 0

/-- A change of a workspace. -/
inductive Edit where
  /-- Takes a node identity without making a node. -/
  | reserveNode
  /-- Takes a function identity without making a function. -/
  | reserveFunc
  | make (spec : Node.Spec)
  | clone (node : NodeId)
  | pushInput (node : NodeId) (value : Value)
  | setDraftInput (node : NodeId) (input : Nat) (value : Value)
  | setDraftPredicate (node : NodeId) (value : Value)
  | addResult (node : NodeId) (type? : Option TensorType)
  | setDraftType (node : NodeId) (result : Nat) (type : TensorType)
  | setDraftName (node : NodeId) (name : String)
  /-- Writes the parent of a free node by hand. -/
  | forceParent (node : NodeId) (parent? : Option FuncId)
  /-- Writes a record into the use list of a free node by hand. -/
  | forceUse (node : NodeId) (use : Use)
  | addFunc (name : String)
  | eraseFunc (func : FuncId)
  | attach (node : NodeId) (func : FuncId) (before? : Option NodeId)
  | setInput (node : NodeId) (input : Nat) (value : Value)
  | setPredicate (node : NodeId) (value : Value)
  | setType (node : NodeId) (result : Nat) (type : TensorType)
  | setName (node : NodeId) (name : String)
  | clearOperands (node : NodeId)
  | replaceUses (source target : Value)
  | replaceNode (old new : NodeId)
  | clearUses (node : NodeId)
  | eraseNode (func : FuncId) (node : NodeId)
  | moveRange (source : FuncId) (first last : NodeId) (target : FuncId) (before? : Option NodeId)

/-- What an edit answers. -/
inductive Reply where
  | done
  | node (id : NodeId)
  | func (id : FuncId)
  | count (n : Nat)
  /-- There is no such free node. -/
  | absent
deriving DecidableEq, Repr

namespace Workspace

/-- The workspace at the start. -/
def empty : Workspace := {}

/-- A workspace after an edit, with the reply or the reason why there is none. -/
abbrev Result := Workspace × Except Fault Reply

/-- The free or stored node with identity `n`. -/
def node? (w : Workspace) (n : NodeId) : Option Node :=
  match w.drafts[n]? with
  | some draft => some draft
  | none => w.graph.node? n

/-- Takes the next node identity. -/
def takeNode (w : Workspace) : NodeId × Workspace :=
  (⟨w.nextNode⟩, { w with nextNode := w.nextNode + 1 })

/-- Takes the next function identity. -/
def takeFunc (w : Workspace) : FuncId × Workspace :=
  (⟨w.nextFunc⟩, { w with nextFunc := w.nextFunc + 1 })

/-- Keeps a free node. -/
def keep (w : Workspace) (n : Node) : Workspace := { w with drafts := w.drafts.insert n.id n }

/-- Gives up a free node. -/
def drop (w : Workspace) (n : NodeId) : Workspace := { w with drafts := w.drafts.erase n }

/-- Changes a free node; a refused change leaves it as it was. -/
def changeDraft (w : Workspace) (n : NodeId) (change : Node → Except Violation Node) : Result :=
  match w.drafts[n]? with
  | none => (w, .ok .absent)
  | some draft =>
    match change draft with
    | .error e => (w, .error (.violated e))
    | .ok draft => (w.keep draft, .ok .done)

/-- Guards a free node; a refused change costs the node. -/
def guardDraft (w : Workspace) (n : NodeId) (v : Value) : Result :=
  match w.drafts[n]? with
  | none => (w, .ok .absent)
  | some draft =>
    match draft.setPredicate v with
    | .error e => (w.drop n, .error (.violated e))
    | .ok draft => (w.keep draft, .ok .done)

/-- Makes a free node. -/
def make (w : Workspace) (spec : Node.Spec) : Result :=
  let (id, w) := w.takeNode
  match spec.build id with
  | .error e => (w, .error (.violated e))
  | .ok n => (w.keep n, .ok (.node id))

/-- Copies a free or stored node into a free one. -/
def clone (w : Workspace) (n : NodeId) : Result :=
  match w.node? n with
  | none => (w, .ok .absent)
  | some node =>
    let (id, w) := w.takeNode
    (w.keep (node.clone id), .ok (.node id))

/-- Attaches a free node. It is no longer free, whether or not it could be attached. -/
def attach (w : Workspace) (n : NodeId) (f : FuncId) (before? : Option NodeId) : Result :=
  match w.drafts[n]? with
  | none => (w, .ok .absent)
  | some draft =>
    match w.graph.attach f draft before? with
    | .error e => (w.drop n, .error (.refused e))
    | .ok graph => ({ w.drop n with graph }, .ok (.node n))

/-- Changes the graph by an edit that may be refused. -/
def edit (w : Workspace) (result : Except Fault (Graph × Reply)) : Result :=
  match result with
  | .error e => (w, .error e)
  | .ok (graph, reply) => ({ w with graph }, .ok reply)

/-- Changes the graph by an edit that may stop half way. -/
def editPartly {α : Type} (w : Workspace) (outcome : Graph.Outcome α) (reply : α → Reply) :
    Result :=
  ({ w with graph := outcome.1 }, outcome.2.map reply)

/-- Performs an edit. -/
def apply (w : Workspace) : Edit → Result
  | .reserveNode => let (id, w) := w.takeNode; (w, .ok (.node id))
  | .reserveFunc => let (id, w) := w.takeFunc; (w, .ok (.func id))
  | .make spec => w.make spec
  | .clone n => w.clone n
  | .pushInput n v => w.changeDraft n (·.pushInput v)
  | .setDraftInput n i v => w.changeDraft n (·.setInput i v)
  | .setDraftPredicate n v => w.guardDraft n v
  | .addResult n t? => w.changeDraft n (·.addResult t?)
  | .setDraftType n i t => w.changeDraft n (·.setType i t)
  | .setDraftName n name => w.changeDraft n fun d => .ok { d with name }
  | .forceParent n parent? => w.changeDraft n fun d => .ok { d with parent? }
  | .forceUse n u => w.changeDraft n fun d => .ok { d with uses := d.uses.add u }
  | .addFunc name =>
    let (id, w) := w.takeFunc
    ({ w with graph := w.graph.addFunc id name }, .ok (.func id))
  | .eraseFunc f => w.editPartly (w.graph.eraseFunc f) fun _ => .done
  | .attach n f before? => w.attach n f before?
  | .setInput n i v => w.edit ((w.graph.setInput n i v).map (·, .done))
  | .setPredicate n v => w.edit (((w.graph.setPredicate n v).map (·, .done)).mapError .refused)
  | .setType n i t => w.edit ((w.graph.setType n i t).map (·, .done))
  | .setName n name => w.edit (((w.graph.setName n name).map (·, .done)).mapError .refused)
  | .clearOperands n => w.edit (((w.graph.clearOperands n).map (·, .done)).mapError .refused)
  | .replaceUses source target => w.editPartly (w.graph.replaceUses source target) .count
  | .replaceNode old new => w.editPartly (w.graph.replaceNode old new) .count
  | .clearUses n => w.editPartly (w.graph.clearUses n) .count
  | .eraseNode f n => w.editPartly (w.graph.eraseNode f n) fun _ => .done
  | .moveRange source first last target before? =>
    w.edit (((w.graph.moveRange source first last target before?).map
      fun (graph, moved) => (graph, .count moved)).mapError .refused)

/-- Performs edits one after the other, whatever their outcome. -/
def run (w : Workspace) (edits : List Edit) : Workspace :=
  edits.foldl (fun w e => (w.apply e).1) w

end Workspace

end Dataflow
