import Dataflow.Proofs.History

/-!
# Histories with edits by hand

A record that is written into a use list by hand breaks the symmetry of slots and records, and with it
whatever rests on it. What can be said of each node by itself is kept by every history all the same: a
property that outlasts what single edits do to a node (`Node.Lasting`) holds of all nodes, free or stored
under their own identities, after every history (`each_run`). So a slot that reads nothing never holds a
token (`tidy_run`), and no node ever has more results than there is room for (`limited_run`).
-/

namespace Dataflow

/-! ## Nodes -/

namespace Node

variable {n m : Node}

/-- The slots that read nothing hold no tokens. -/
def Tidy (n : Node) : Prop := ∀ s o, n.operand? s = some o → o.value = .null → o.token? = none

/-- The node has no more results than a node may have. -/
def Limited (n : Node) : Prop := n.results.length ≤ maxResults

/-- What an edit can make of a node: a slot is filled with no token for nothing or left as it was, and
results are added within the limit. -/
structure Develops (n m : Node) : Prop where
  slot : ∀ s o, m.operand? s = some o → n.operand? s = some o ∨ (o.value = .null → o.token? = none)
  results : m.results.length = n.results.length ∨ m.Limited

/-- A property of nodes that new nodes have and that no edit takes from a node. -/
structure Lasting (Q : Node → Prop) : Prop where
  fresh : ∀ {n : Node}, n.Unlinked → n.results = [] → Q n
  develops : ∀ {n m : Node}, n.Develops m → Q n → Q m

theorem lasting_tidy : Lasting Tidy where
  fresh free _ _ _ held _ := free.token held
  develops change tidy s o held null := (change.slot s o held).elim (tidy s o · null) (· null)

theorem lasting_limited : Lasting Limited where
  fresh _ none := by simp [Limited, none]
  develops change limited := change.results.elim
    (fun same => Nat.le_trans (Nat.le_of_eq same) limited) fun within => within

/-! ### Changes of a node -/

theorem TokensFrom.develops (tokens : n.TokensFrom m)
    (results : m.results.length = n.results.length ∨ m.Limited) : n.Develops m :=
  ⟨fun s o held => (tokens s o held).imp_right fun none _ => none, results⟩

theorem develops_of_operand? (same : m.operand? = n.operand?)
    (results : m.results.length = n.results.length) : n.Develops m :=
  (tokensFrom_of_operand? same).develops (.inl results)

theorem develops_setOperand (n : Node) (s : Slot) {o : Operand}
    (ho : o.value = .null → o.token? = none) : n.Develops (n.setOperand s o) := by
  refine ⟨fun s' o' held => ?_, .inl (by cases s <;> rfl)⟩
  rw [operand?_setOperand] at held
  split_ifs at held
  · obtain ⟨-, -, rfl⟩ := Option.map_eq_some_iff.1 held
    exact .inr ho
  · exact .inl held

theorem develops_parent (n : Node) (parent? : Option FuncId) :
    n.Develops { n with parent? := parent? } :=
  develops_of_operand? (funext fun s => by cases s <;> rfl) rfl

theorem develops_clone (n : Node) (id : NodeId) : n.Develops (n.clone id) :=
  ⟨fun _ _ held => .inr fun _ => (n.unlinked_clone id).token held, .inl rfl⟩

theorem develops_pushInput {v : Value} (done : n.pushInput v = .ok m) : n.Develops m := by
  refine (retains_pushInput v n m done).2.2.develops (.inl ?_)
  obtain ⟨_, -, done⟩ := bind_eq_ok_iff.1 done
  cases done
  rfl

theorem develops_setInput {i : Nat} {v : Value} (done : n.setInput i v = .ok m) : n.Develops m := by
  refine (retains_setInput i v n m done).2.2.develops (.inl ?_)
  obtain ⟨_, -, done⟩ := bind_eq_ok_iff.1 done
  split_ifs at done
  cases done
  rfl

theorem develops_setPredicate {v : Value} (done : n.setPredicate v = .ok m) : n.Develops m := by
  refine (retains_setPredicate v n m done).2.2.develops (.inl ?_)
  obtain ⟨_, -, done⟩ := bind_eq_ok_iff.1 done
  cases done
  rfl

theorem develops_setType {i : Nat} {t : TensorType} (done : n.setType i t = .ok m) :
    n.Develops m := by
  refine (retains_setType i t n m done).2.2.develops (.inl ?_)
  unfold setType at done
  split_ifs at done
  cases done
  exact List.length_set

theorem develops_addResult {t? : Option TensorType} (done : n.addResult t? = .ok m) :
    n.Develops m := by
  refine (retains_addResult t? n m done).2.2.develops (.inr ?_)
  unfold addResult at done
  split_ifs at done with room
  cases done
  rw [Limited, List.length_append]
  exact room

theorem Lasting.build {Q : Node → Prop} (lasting : Lasting Q) {spec : Spec} {id : NodeId}
    (made : spec.build id = .ok n) : Q n := by
  have results (ts : List (Option TensorType)) {n m : Node} (done : ts.foldlM addResult n = .ok m)
      (start : Q n) : Q m := by
    induction ts generalizing n with
    | nil =>
      cases done
      exact start
    | cons t ts ih =>
      rw [List.foldlM_cons] at done
      obtain ⟨k, first, rest⟩ := bind_eq_ok_iff.1 done
      exact ih rest (lasting.develops (develops_addResult first) start)
  exact results spec.results made (lasting.fresh (unlinked_of_inputs spec.inputs rfl rfl rfl) rfl)

end Node

/-! ## Graphs -/

namespace Graph

variable {g h : Graph} {Q : Node → Prop}

/-- Nodes are stored under their own identities, and all of them have the property `Q`. -/
def Each (Q : Node → Prop) (g : Graph) : Prop := ∀ n node, g.node? n = some node → node.id = n ∧ Q node

/-- Nodes are stored under their own identities, and their slots hold no tokens for nothing. -/
def Tidy (g : Graph) : Prop := ∀ n node, g.node? n = some node → node.id = n ∧ node.Tidy

theorem Tidy.operand? (tidy : g.Tidy) {x : NodeId} {s : Slot} {o : Operand}
    (held : g.operand? x s = some o) (null : o.value = .null) : o.token? = none := by
  obtain ⟨node, stored, held⟩ := operand?_eq_some_iff.1 held
  exact (tidy x node stored).2 s o held null

theorem each_empty (Q : Node → Prop) : empty.Each Q := fun n node stored => by
  rw [node?_empty] at stored
  cases stored

/-- There is no list in which a use of nothing could be recorded. -/
theorem nextToken?_of_null {v : Value} (null : v = .null) : g.nextToken? v = none := by
  subst null
  rfl

section

variable (lasting : Node.Lasting Q)
include lasting

theorem Each.modifyNode (each : g.Each Q) {n : NodeId} {f : Node → Node}
    (develops : ∀ node, g.node? n = some node → (f node).id = node.id ∧ node.Develops (f node)) :
    (g.modifyNode n f).Each Q := by
  intro m node stored
  rw [node?_modifyNode] at stored
  split_ifs at stored with same
  · subst same
    obtain ⟨old, found, rfl⟩ := Option.map_eq_some_iff.1 stored
    obtain ⟨id, holds⟩ := each n old found
    exact ⟨(develops old found).1.trans id, lasting.develops (develops old found).2 holds⟩
  · exact each m node stored

/-! ### Operands -/

theorem Each.recordUse (each : g.Each Q) (u : Use) : (g.recordUse u).Each Q := by
  unfold Graph.recordUse
  split
  · exact each
  · exact each.modifyNode lasting fun node _ =>
      ⟨rfl, Node.develops_of_operand? (funext fun s => by cases s <;> rfl) rfl⟩

theorem Each.forgetUse (each : g.Each Q) (o : Operand) : (g.forgetUse o).Each Q := by
  unfold Graph.forgetUse
  split
  · exact each.modifyNode lasting fun node _ =>
      ⟨rfl, Node.develops_of_operand? (funext fun s => by cases s <;> rfl) rfl⟩
  · exact each

theorem Each.connect (each : g.Each Q) (user : NodeId) (s : Slot) (v : Value) :
    (g.connect user s v).Each Q := by
  cases held : g.operand? user s with
  | none =>
    rw [connect_of_none held]
    exact each
  | some old =>
    rw [connect_eq held]
    split_ifs
    · exact each
    · exact ((each.forgetUse lasting old).recordUse lasting _).modifyNode lasting fun node _ =>
        ⟨node.id_setOperand s _, node.develops_setOperand s nextToken?_of_null⟩

theorem Patched.each {P : Value → Prop} (p : Patched P g h) (each : g.Each Q) : h.Each Q := by
  induction p with
  | refl => exact each
  | connect user s _ _ ih => exact ih (each.connect lasting user s _)

theorem Each.linkOperands (each : g.Each Q) {n : Node} (holds : Q n) (operands : List (Slot × Value)) :
    (linkOperands operands g n).1.Each Q ∧ Q (linkOperands operands g n).2 := by
  induction operands generalizing g n with
  | nil => exact ⟨each, holds⟩
  | cons e operands ih =>
    exact ih (each.recordUse lasting _)
      (lasting.develops (n.develops_setOperand e.1 nextToken?_of_null) holds)

theorem Each.store (each : g.Each Q) {n : Node} (holds : Q n) (f : FuncId) (before? : Option NodeId) :
    (g.store f n before?).Each Q := by
  have owned : Q { n with parent? := some f } :=
    lasting.develops (n.develops_parent (some f)) holds
  obtain ⟨kept, linked⟩ := each.linkOperands lasting owned n.operands
  intro m node stored
  change (Graph.withNode _ _).node? m = some node at stored
  rw [node?_withNode] at stored
  split_ifs at stored with same
  · cases stored
    exact ⟨same, linked⟩
  · exact kept m node stored

/-! ### Edits -/

theorem outlastsErasing_each : OutlastsErasing (Each Q) where
  patched p each := p.each lasting each
  discard f n each m node stored := by
    rw [node?_discard] at stored
    split_ifs at stored
    exact each m node stored
  funcs _ each := each

theorem Each.setType (each : g.Each Q) {n : NodeId} {i : Nat} {t : TensorType}
    (done : g.setType n i t = .ok h) : h.Each Q := by
  obtain ⟨node, found, done⟩ := bind_eq_ok_iff.1 done
  obtain ⟨typed, changed, done⟩ := bind_eq_ok_iff.1 done
  cases done
  have stored := nodeOrRefusal_eq_ok_iff.1 (mapError_eq_ok_iff.1 found)
  have changed := mapError_eq_ok_iff.1 changed
  refine each.modifyNode lasting fun old found => ?_
  obtain rfl := Option.some.inj (stored.symm.trans found)
  exact ⟨(Node.retains_setType i t _ _ changed).1, Node.develops_setType changed⟩

theorem Each.setName (each : g.Each Q) {n : NodeId} {name : String}
    (done : g.setName n name = .ok h) : h.Each Q := by
  rw [eq_of_setName done]
  exact each.modifyNode lasting fun node _ =>
    ⟨rfl, Node.develops_of_operand? (funext fun s => by cases s <;> rfl) rfl⟩

theorem Each.move (each : g.Each Q) (nodes : List NodeId) (source target : FuncId)
    (before? : Option NodeId) : (g.move nodes source target before?).Each Q := by
  intro m node stored
  rw [node?_move] at stored
  obtain ⟨old, found, rfl⟩ := Option.map_eq_some_iff.1 stored
  obtain ⟨id, holds⟩ := each m old found
  split_ifs
  · exact ⟨id, lasting.develops (old.develops_parent (some target)) holds⟩
  · exact ⟨id, holds⟩

end

end Graph

/-! ## Workspaces -/

namespace Workspace

variable {w : Workspace} {Q : Node → Prop}

/-- The nodes of the graph and the free nodes have the property `Q`. -/
structure Each (Q : Node → Prop) (w : Workspace) : Prop where
  graph : w.graph.Each Q
  draft : ∀ {n : NodeId} {d}, w.drafts[n]? = some d → Q d

theorem Each.keep (each : w.Each Q) {d : Node} (holds : Q d) : (w.keep d).Each Q := by
  refine ⟨each.graph, fun {n d'} held => ?_⟩
  rw [drafts_keep] at held
  split_ifs at held
  · exact Option.some.inj held ▸ holds
  · exact each.draft held

theorem Each.drop (each : w.Each Q) (n : NodeId) : (w.drop n).Each Q := by
  refine ⟨each.graph, fun {m d} held => ?_⟩
  rw [drafts_drop] at held
  split_ifs at held
  exact each.draft held

theorem Each.node? (each : w.Each Q) {n : NodeId} {node : Node} (found : w.node? n = some node) :
    Q node := by
  unfold Workspace.node? at found
  split at found
  · next d held => exact Option.some.inj found ▸ each.draft held
  · exact (each.graph n node found).2

theorem Each.takeNode (each : w.Each Q) : w.takeNode.2.Each Q := ⟨each.graph, each.draft⟩

theorem Each.withGraph (each : w.Each Q) {h : Graph} (holds : h.Each Q) : { w with graph := h }.Each Q :=
  ⟨holds, each.draft⟩

section

variable (lasting : Node.Lasting Q)
include lasting

theorem Each.changeDraft (each : w.Each Q) (n : NodeId) {change : Node → Except Violation Node}
    (develops : ∀ d d', change d = .ok d' → d.Develops d') : (w.changeDraft n change).1.Each Q :=
  changeDraft_of_forall each fun d d' held done =>
    each.keep (lasting.develops (develops d d' done) (each.draft held))

theorem Each.guardDraft (each : w.Each Q) (n : NodeId) (v : Value) : (w.guardDraft n v).1.Each Q :=
  guardDraft_of_forall each (each.drop n) fun _ _ held done =>
    each.keep (lasting.develops (Node.develops_setPredicate done) (each.draft held))

theorem Each.make (each : w.Each Q) (spec : Node.Spec) : (w.make spec).1.Each Q :=
  make_of_forall each.takeNode fun _ made => each.takeNode.keep (lasting.build made)

theorem Each.clone (each : w.Each Q) (n : NodeId) : (w.clone n).1.Each Q :=
  clone_of_forall each fun node found =>
    each.takeNode.keep (lasting.develops (node.develops_clone _) (each.node? found))

theorem Each.attach (each : w.Each Q) (n : NodeId) (f : FuncId) (before? : Option NodeId) :
    (w.attach n f before?).1.Each Q := by
  refine attach_of_forall each (each.drop n) fun d h held done => ?_
  obtain ⟨_, -, done⟩ := bind_eq_ok_iff.1 done
  cases done
  exact ⟨each.graph.store lasting (each.draft held) f before?, (each.drop n).draft⟩

/-- No edit takes a lasting property from a node, not even one that writes by hand. -/
theorem Each.apply (each : w.Each Q) (e : Edit) : (w.apply e).1.Each Q := by
  have graph := each.graph
  cases e with
  | reserveNode => exact each.takeNode
  | reserveFunc => exact ⟨graph, each.draft⟩
  | make spec => exact each.make lasting spec
  | clone n => exact each.clone lasting n
  | pushInput n v => exact each.changeDraft lasting n fun _ _ => Node.develops_pushInput
  | setDraftInput n i v => exact each.changeDraft lasting n fun _ _ => Node.develops_setInput
  | setDraftPredicate n v => exact each.guardDraft lasting n v
  | addResult n t? => exact each.changeDraft lasting n fun _ _ => Node.develops_addResult
  | setDraftType n i t => exact each.changeDraft lasting n fun _ _ => Node.develops_setType
  | setDraftName | forceParent | forceUse =>
    refine each.changeDraft lasting _ fun d d' done => ?_
    cases done
    exact Node.develops_of_operand? (funext fun s => by cases s <;> rfl) rfl
  | addFunc name => exact ⟨graph, each.draft⟩
  | eraseFunc f => exact each.withGraph ((Graph.outlastsErasing_each lasting).eraseFunc graph f)
  | attach n f before? => exact each.attach lasting n f before?
  | setInput n i v =>
    refine editMap_of_forall each fun h done => ?_
    obtain ⟨-, rfl⟩ := Graph.eq_of_setInput done
    exact each.withGraph (graph.connect lasting n (.input i) v)
  | setPredicate n v =>
    refine editMapError_of_forall each fun h done => ?_
    obtain ⟨-, rfl⟩ := Graph.eq_of_setPredicate done
    exact each.withGraph (graph.connect lasting n .predicate v)
  | setType n i t =>
    exact editMap_of_forall each fun h done => each.withGraph (graph.setType lasting done)
  | setName n name =>
    exact editMapError_of_forall each fun h done => each.withGraph (graph.setName lasting done)
  | clearOperands n =>
    refine editMapError_of_forall each fun h done => ?_
    obtain ⟨slots, rfl⟩ := Graph.exists_of_clearOperands done
    exact each.withGraph ((Graph.patched_clearSlots w.graph n slots).each lasting graph)
  | replaceUses source target =>
    exact each.withGraph ((w.graph.patched_replaceUses source target).each lasting graph)
  | replaceNode old new =>
    exact each.withGraph ((w.graph.patched_replaceNode old new).each lasting graph)
  | clearUses n => exact each.withGraph ((w.graph.patched_clearUses n).each lasting graph)
  | eraseNode f n => exact each.withGraph ((Graph.outlastsErasing_each lasting).eraseNode graph f n)
  | moveRange source first last target before? =>
    refine editMapError_of_forall each fun a done => ?_
    obtain ⟨nodes, -, done⟩ := bind_eq_ok_iff.1 done
    cases done
    exact each.withGraph (graph.move lasting nodes source target before?)

theorem Each.run (each : w.Each Q) (edits : List Edit) : (w.run edits).Each Q := by
  unfold Workspace.run
  induction edits generalizing w with
  | nil => exact each
  | cons e edits ih => exact ih (each.apply lasting e)

/-- Every history leaves nodes with all lasting properties. -/
theorem each_run (edits : List Edit) : (empty.run edits).Each Q := by
  refine Each.run lasting ⟨Graph.each_empty Q, fun {n d} held => ?_⟩ edits
  have free : empty.drafts[n]? = none := Std.ExtTreeMap.getElem?_empty
  rw [free] at held
  cases held

end

/-- The graph and the free nodes are in order. -/
structure Tidy (w : Workspace) : Prop where
  graph : w.graph.Tidy
  draft : ∀ {n : NodeId} {d}, w.drafts[n]? = some d → d.Tidy

/-- Every history leaves a tidy workspace. -/
theorem tidy_run (edits : List Edit) : (empty.run edits).Tidy :=
  ⟨(each_run Node.lasting_tidy edits).graph, (each_run Node.lasting_tidy edits).draft⟩

/-- No history leaves a node with more results than a node may have. -/
theorem limited_run (edits : List Edit) : (empty.run edits).Each Node.Limited :=
  each_run Node.lasting_limited edits

theorem Reachable.limited {w : Workspace} (reach : w.Reachable) : w.Each Node.Limited := by
  obtain ⟨edits, -, rfl⟩ := reach
  exact limited_run edits

end Workspace

end Dataflow
