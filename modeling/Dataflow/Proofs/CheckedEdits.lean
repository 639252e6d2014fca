import Dataflow.Proofs.Lookup
import Dataflow.Workspace

/-!
# Checked edits

The edits of a graph take for granted what its use lists and rosters promise: a collected token still
stands for a record, a record says what its slot holds, a token that a slot keeps is that of its own
record, and a node about to be listed is not listed yet. Here the same edits look at all of this when
they come to it, and one that does not find it so ends with an `Alarm` (`Workspace.applyChecked`). A
check is made in the graph that the edit has reached by then, which is half way through a redirection
for most tokens.
-/

namespace Dataflow

/-- What an edit takes for granted and does not find. -/
inductive Alarm where
  /-- A collected token stands for no record any more. -/
  | deadToken (producer : NodeId) (token : Token)
  /-- The slot that a record names does not hold the recorded value. -/
  | staleRecord (use : Use)
  /-- The token of a connected slot stands for no record of this slot. -/
  | strayToken (user : NodeId) (slot : Slot)
  | missingSlot (user : NodeId) (slot : Slot)
  /-- A node is listed already, or the place where it should be listed is not there. -/
  | unplaced (func : FuncId) (node : NodeId)
  /-- A use list holds a record of another node's value. -/
  | foreignRecord (value : Value)
deriving DecidableEq, Repr

/-- Goes on with a checked change unless the edit is refused. -/
def unlessRefused {ε α β : Type} (check : Except ε α) (change : α → Except Alarm β) :
    Except Alarm (Except ε β) :=
  match check with
  | .error e => .ok (.error e)
  | .ok a => (change a).map .ok

namespace Graph.Checked

/-! ## Slots -/

/-- What a slot holds. A node that is stored must have the slot. -/
def slot (g : Graph) (user : NodeId) (s : Slot) : Except Alarm (Option Operand) :=
  match g.node? user with
  | none => .ok none
  | some node =>
    match node.operand? s with
    | none => .error (.missingSlot user s)
    | some o => .ok (some o)

/-- Takes the record of a slot out of its list. If the slot is connected, its token must stand for a
record of this slot. -/
def forgetUse (g : Graph) (user : NodeId) (s : Slot) (o : Operand) : Except Alarm Graph :=
  match o.value.node? with
  | none => .ok (g.forgetUse o)
  | some producer =>
    if (o.token?.bind (g.record? producer)).any fun u => u.user = user ∧ u.slot = s then
      .ok (g.forgetUse o)
    else .error (.strayToken user s)

/-- Fills a slot, which the node must have. -/
def fill (g : Graph) (user : NodeId) (s : Slot) (o : Operand) : Except Alarm Graph := do
  let _ ← slot g user s
  return g.modifyNode user (·.setOperand s o)

/-- Lets a slot read a value. -/
def connect (g : Graph) (user : NodeId) (s : Slot) (v : Value) : Except Alarm Graph := do
  match ← slot g user s with
  | none => return g
  | some old =>
    if old.value = v then return g
    else
      let g ← forgetUse g user s old
      fill (g.recordUse ⟨user, s, v⟩) user s ⟨v, g.nextToken? v⟩

/-- Disconnects the given slots of a node. -/
def clearSlots (g : Graph) (n : NodeId) (slots : List Slot) : Except Alarm Graph :=
  slots.foldlM (fun g s => connect g n s .null) g

/-- Lets the slots of collected records read other values. Every token must still stand for a record
when its turn comes, and the slot of the record must hold the recorded value. -/
def redirect (producer : NodeId) (goal : Nat → Except Violation Value) :
    List Token → Graph → Nat → Except Alarm (Graph × Except Violation Nat)
  | [], g, count => .ok (g, .ok count)
  | token :: tokens, g, count =>
    match g.record? producer token with
    | none => .error (.deadToken producer token)
    | some u => do
      let o? ← slot g u.user u.slot
      if o?.map (·.value) = some u.value then
        match goal u.value.index with
        | .error e => return (g, .error e)
        | .ok v => redirect producer goal tokens (← connect g u.user u.slot v) (count + 1)
      else throw (.staleRecord u)

/-! ## Rosters -/

/-- Lists a node. It must not be listed already, and the position of the node before which it is put
must be there. -/
def list (g : Graph) (f : FuncId) (n : NodeId) (before? : Option NodeId) : Except Alarm Graph :=
  if (g.func? f).all fun func => (func.roster.insert? n before?).isSome then
    .ok (g.modifyRoster f (·.insert? n before?))
  else .error (.unplaced f n)

/-! ## Edits of a graph -/

def linkOperands : List (Slot × Value) → Graph → Node → Except Alarm (Graph × Node)
  | [], g, n => .ok (g, n)
  | (s, v) :: operands, g, n =>
    if (n.operand? s).isSome then
      linkOperands operands (g.recordUse ⟨n.id, s, v⟩) (n.setOperand s ⟨v, g.nextToken? v⟩)
    else .error (.missingSlot n.id s)

def store (g : Graph) (f : FuncId) (n : Node) (before? : Option NodeId) : Except Alarm Graph := do
  let (g, n) ← linkOperands n.operands g { n with parent? := some f }
  list { g with nodes := g.nodes.insert n.id n } f n.id before?

def attach (g : Graph) (f : FuncId) (n : Node) (before? : Option NodeId) :
    Except Alarm (Except Refusal Graph) :=
  unlessRefused (g.checkAttach f n before?) fun _ => store g f n before?

def setInput (g : Graph) (n : NodeId) (i : Nat) (v : Value) : Except Alarm (Except Fault Graph) :=
  unlessRefused (do
    let node ← (g.nodeOrRefusal n).mapError .refused
    unless i < node.inputs.length do throw (.violated (.noInput n node.inputs.length i))
    (g.checkReadable n v).mapError .refused)
  fun _ => connect g n (.input i) v

def setPredicate (g : Graph) (n : NodeId) (v : Value) : Except Alarm (Except Refusal Graph) :=
  unlessRefused (do let _ ← g.nodeOrRefusal n; g.checkReadable n v)
  fun _ => connect g n .predicate v

def clearOperands (g : Graph) (n : NodeId) : Except Alarm (Except Refusal Graph) :=
  unlessRefused (g.nodeOrRefusal n) fun node => clearSlots g n node.slots

def guarded {α β : Type} (g : Graph) (check : Except Refusal α)
    (edit : α → Except Alarm (Outcome β)) : Except Alarm (Outcome β) :=
  match check with
  | .error e => .ok (g, .error (.refused e))
  | .ok a => edit a

def redirectUses (g : Graph) (producer : NodeId) (tokens : List Token)
    (goal : Nat → Except Violation Value) : Except Alarm (Outcome Nat) := do
  let (g, count) ← redirect producer goal tokens g 0
  return (g, count.mapError .violated)

def replaceUses (g : Graph) (source target : Value) : Except Alarm (Outcome Nat) :=
  match source with
  | .null => .ok (g, .ok 0)
  | .result producer i =>
    guarded g (do
      let node ← g.nodeOrRefusal producer
      g.checkReadable producer target
      return node.uses.tokensOf i)
    fun tokens =>
      if source = target then .ok (g, .ok 0)
      else redirectUses g producer tokens fun _ => .ok target

def replaceNode (g : Graph) (old new : NodeId) : Except Alarm (Outcome Nat) :=
  guarded g (do
    let node ← g.nodeOrRefusal old
    let replacement ← g.nodeOrRefusal new
    return (node.uses.tokensOf none, replacement.results.length))
  fun (tokens, count) =>
    if old = new then .ok (g, .ok 0)
    else redirectUses g old tokens fun i =>
      if i < count then .ok (.result new i) else .error (.noCounterpart new i old)

def clearUses (g : Graph) (n : NodeId) : Except Alarm (Outcome Nat) :=
  guarded g (g.nodeOrRefusal n) fun node =>
    redirectUses g n (node.uses.tokensOf none) fun _ => .ok .null

def eraseNode (g : Graph) (f : FuncId) (n : NodeId) : Except Alarm (Outcome Unit) :=
  guarded g (do g.checkOwned f n; g.nodeOrRefusal n) fun node => do
    match ← clearUses (← clearSlots g n node.slots) n with
    | (g, .error e) => return (g, .error e)
    | (g, .ok _) => return (g.discard f n, .ok ())

def eraseNodes (f : FuncId) : List NodeId → Graph → Except Alarm (Outcome Unit)
  | [], g => .ok (g, .ok ())
  | n :: nodes, g => do
    match ← eraseNode g f n with
    | (g, .error e) => return (g, .error e)
    | (g, .ok _) => eraseNodes f nodes g

def eraseFunc (g : Graph) (f : FuncId) : Except Alarm (Outcome Unit) :=
  guarded g (g.funcOrRefusal f) fun func => do
    match ← eraseNodes f func.nodes g with
    | (g, .error e) => return (g, .error e)
    | (g, .ok _) => return ({ g with funcs := g.funcs.filter (·.id ≠ f) }, .ok ())

def move (g : Graph) (nodes : List NodeId) (source target : FuncId) (before? : Option NodeId) :
    Except Alarm Graph := do
  let g := nodes.foldl (fun g n => g.modifyRoster source (·.remove? n)) g
  let g ← nodes.foldlM (fun g n => list g target n before?) g
  return nodes.foldl (fun g n => g.modifyNode n ({ · with parent? := some target })) g

def moveRange (g : Graph) (source : FuncId) (first last : NodeId) (target : FuncId)
    (before? : Option NodeId) : Except Alarm (Except Refusal (Graph × Nat)) :=
  unlessRefused (g.checkMove source first last target before?) fun nodes =>
    (move g nodes source target before?).map (·, nodes.length)

/-- The records of the uses of a value. Every record met in the list must be one of a value of the
same node. -/
def usesOf (g : Graph) (v : Value) : Except Alarm (List Use) :=
  if v.node?.all fun p => (g.allUses p).all (·.value.node? = some p) then .ok (g.usesOf v)
  else .error (.foreignRecord v)

end Graph.Checked

/-! ## Edits of a workspace -/

namespace Workspace

def attachChecked (w : Workspace) (n : NodeId) (f : FuncId) (before? : Option NodeId) :
    Except Alarm Result :=
  match w.drafts[n]? with
  | none => .ok (w, .ok .absent)
  | some draft =>
    (Graph.Checked.attach w.graph f draft before?).map fun
      | .error e => (w.drop n, .error (.refused e))
      | .ok graph => ({ w.drop n with graph }, .ok (.node n))

/-- Performs an edit with all checks. Edits that look at no slot of a stored node and at no roster make
none. -/
def applyChecked (w : Workspace) : Edit → Except Alarm Result
  | .eraseFunc f => (Graph.Checked.eraseFunc w.graph f).map (w.editPartly · fun _ => .done)
  | .attach n f before? => w.attachChecked n f before?
  | .setInput n i v => (Graph.Checked.setInput w.graph n i v).map fun r =>
    w.edit (r.map (·, .done))
  | .setPredicate n v => (Graph.Checked.setPredicate w.graph n v).map fun r =>
    w.edit ((r.map (·, .done)).mapError .refused)
  | .clearOperands n => (Graph.Checked.clearOperands w.graph n).map fun r =>
    w.edit ((r.map (·, .done)).mapError .refused)
  | .replaceUses source target =>
    (Graph.Checked.replaceUses w.graph source target).map (w.editPartly · .count)
  | .replaceNode old new => (Graph.Checked.replaceNode w.graph old new).map (w.editPartly · .count)
  | .clearUses n => (Graph.Checked.clearUses w.graph n).map (w.editPartly · .count)
  | .eraseNode f n => (Graph.Checked.eraseNode w.graph f n).map (w.editPartly · fun _ => .done)
  | .moveRange source first last target before? =>
    (Graph.Checked.moveRange w.graph source first last target before?).map fun r =>
      w.edit ((r.map fun (graph, moved) => (graph, .count moved)).mapError .refused)
  | e => .ok (w.apply e)

end Workspace

end Dataflow
