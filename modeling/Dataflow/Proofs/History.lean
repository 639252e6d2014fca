import Dataflow.Proofs.Erasure
import Dataflow.Proofs.FreeNode
import Dataflow.Proofs.Transfer
import Dataflow.Workspace

/-!
# Histories

A workspace is consistent when its graph is coherent, its free nodes are unlinked and not stored, and
every identity in use has been given out. Each edit leaves a consistent workspace (`Consistent.apply`),
whether it succeeds, is refused or stops half way; the one exception is writing a record into a use
list by hand. Hence every workspace that is reachable without this is consistent
(`Reachable.consistent`). Each edit also leaves every node where it was or further on: nodes become
free when their identity is given out, and stored when they were free (`Follows`).
-/

namespace Dataflow

/-- Whether an edit writes a record into a use list by hand. -/
def Edit.plantsUse : Edit → Bool
  | .forceUse .. => true
  | _ => false

namespace Workspace

/-- The workspace is left by a history of edits, whatever their outcome, none of which writes a use
record by hand. -/
def Reachable (w : Workspace) : Prop :=
  ∃ edits : List Edit, (∀ e ∈ edits, e.plantsUse = false) ∧ empty.run edits = w

/-- The graph is coherent, free nodes are unlinked and not stored, and identities in use have been
given out. -/
structure Consistent (w : Workspace) : Prop where
  coherent : w.graph.Coherent
  draft : ∀ {n : NodeId} {d}, w.drafts[n]? = some d →
    d.id = n ∧ d.Unlinked ∧ n.number < w.nextNode ∧ w.graph.node? n = none
  stored : ∀ {n}, w.graph.contains n → n.number < w.nextNode
  func : ∀ {f}, w.graph.HasFunc f → f.number < w.nextFunc

/-- A consistent workspace `w'` in which free nodes were free in `w` or are new, and stored nodes
were stored or free. -/
structure Follows (w w' : Workspace) : Prop where
  consistent : w'.Consistent
  nextNode_le : w.nextNode ≤ w'.nextNode
  free : ∀ {n : NodeId} {d}, w'.drafts[n]? = some d →
    (∃ d, w.drafts[n]? = some d) ∨ w.nextNode ≤ n.number
  stored : ∀ {n}, w'.graph.contains n → w.graph.contains n ∨ ∃ d, w.drafts[n]? = some d

theorem Consistent.follows {w : Workspace} (co : w.Consistent) : w.Follows w :=
  ⟨co, Nat.le_refl _, fun held => .inl ⟨_, held⟩, fun stored => .inl stored⟩

theorem drafts_keep (w : Workspace) (d : Node) (n : NodeId) :
    (w.keep d).drafts[n]? = if d.id = n then some d else w.drafts[n]? := by
  simp only [keep, Std.ExtTreeMap.getElem?_insert, NodeId.compare_eq_iff]

theorem drafts_drop (w : Workspace) (n m : NodeId) :
    (w.drop n).drafts[m]? = if n = m then none else w.drafts[m]? := by
  simp only [drop, Std.ExtTreeMap.getElem?_erase, NodeId.compare_eq_iff]

theorem node?_of_held {w : Workspace} {n : NodeId} {d : Node} (held : w.drafts[n]? = some d) :
    w.node? n = some d := by
  rw [Workspace.node?, held]

theorem node?_of_unheld {w : Workspace} {n : NodeId} (unheld : w.drafts[n]? = none) :
    w.node? n = w.graph.node? n := by
  rw [Workspace.node?, unheld]

theorem node?_keep (w : Workspace) (d : Node) (n : NodeId) :
    (w.keep d).node? n = if d.id = n then some d else w.node? n := by
  rw [Workspace.node?, drafts_keep]
  split_ifs <;> rfl

theorem node?_drop_of_ne (w : Workspace) {n m : NodeId} (ne : n ≠ m) :
    (w.drop n).node? m = w.node? m := by
  rw [Workspace.node?, drafts_drop, if_neg ne]
  rfl

/-! ## What an edit of free nodes leaves

A property holds of the workspace that an edit leaves if it holds of each that the edit can leave. -/

section Outcomes

variable {P : Workspace → Prop} {w : Workspace} {n : NodeId}

theorem changeDraft_of_forall {change : Node → Except Violation Node} (same : P w)
    (done : ∀ old d, w.drafts[n]? = some old → change old = .ok d → P (w.keep d)) :
    P (w.changeDraft n change).1 := by
  unfold Workspace.changeDraft
  split
  · exact same
  · next old held =>
    split
    · exact same
    · next d changed => exact done old d held changed

/-- A refused guard costs the node. -/
theorem guardDraft_of_forall {v : Value} (same : P w) (dropped : P (w.drop n))
    (done : ∀ old d, w.drafts[n]? = some old → old.setPredicate v = .ok d → P (w.keep d)) :
    P (w.guardDraft n v).1 := by
  unfold Workspace.guardDraft
  split
  · exact same
  · next old held =>
    split
    · exact dropped
    · next d guarded => exact done old d held guarded

/-- The identity is taken even if no node is made. -/
theorem make_of_forall {spec : Node.Spec} (taken : P w.takeNode.2)
    (done : ∀ d, spec.build ⟨w.nextNode⟩ = .ok d → P (w.takeNode.2.keep d)) :
    P (w.make spec).1 := by
  unfold Workspace.make
  dsimp only
  split
  · exact taken
  · next d made => exact done d made

theorem clone_of_forall (same : P w)
    (done : ∀ node, w.node? n = some node → P (w.takeNode.2.keep (node.clone ⟨w.nextNode⟩))) :
    P (w.clone n).1 := by
  unfold Workspace.clone
  split
  · exact same
  · next node found => exact done node found

/-- A copy of a node is a free node with the next identity. -/
theorem apply_clone {node : Node} (found : w.node? n = some node) :
    w.apply (.clone n) =
      (w.takeNode.2.keep (node.clone ⟨w.nextNode⟩), .ok (.node ⟨w.nextNode⟩)) := by
  simp only [Workspace.apply, Workspace.clone, found]
  rfl

/-- A node is given up whether or not it can be attached. -/
theorem attach_of_forall {f : FuncId} {before? : Option NodeId} (same : P w) (dropped : P (w.drop n))
    (done : ∀ d h, w.drafts[n]? = some d → w.graph.attach f d before? = .ok h →
      P { w.drop n with graph := h }) : P (w.attach n f before?).1 := by
  unfold Workspace.attach
  split
  · exact same
  · next d held =>
    split
    · exact dropped
    · next h attached => exact done d h held attached

end Outcomes

/-! ## Identities and free nodes -/

theorem Consistent.takeNode {w : Workspace} (co : w.Consistent) : w.Follows w.takeNode.2 := by
  refine ⟨⟨co.coherent, fun held => ?_, fun stored => Nat.lt_succ_of_lt (co.stored stored), co.func⟩,
    Nat.le_succ _, fun held => .inl ⟨_, held⟩, fun stored => .inl stored⟩
  obtain ⟨id, free, issued, absent⟩ := co.draft held
  exact ⟨id, free, Nat.lt_succ_of_lt issued, absent⟩

theorem Consistent.takeFunc {w : Workspace} (co : w.Consistent) : w.Follows w.takeFunc.2 :=
  ⟨⟨co.coherent, co.draft, co.stored, fun exists_ => Nat.lt_succ_of_lt (co.func exists_)⟩,
    Nat.le_refl _, fun held => .inl ⟨_, held⟩, fun stored => .inl stored⟩

/-- A new free node takes the next identity. -/
theorem Consistent.issue {w : Workspace} (co : w.Consistent) {d : Node} (id : d.id = ⟨w.nextNode⟩)
    (free : d.Unlinked) : w.Follows (w.takeNode.2.keep d) := by
  have taken := co.takeNode
  refine ⟨⟨co.coherent, fun {n d'} held => ?_, taken.consistent.stored, co.func⟩, Nat.le_succ _,
    fun {n d'} held => ?_, fun stored => .inl stored⟩
  · rw [drafts_keep] at held
    split_ifs at held with same
    · cases held
      obtain rfl : n = ⟨w.nextNode⟩ := same.symm.trans id
      refine ⟨id, free, Nat.lt_succ_self _, ?_⟩
      -- a number that has not been given out is not that of a stored node
      exact Graph.not_contains_iff.1 fun stored => Nat.lt_irrefl _ (co.stored stored)
    · exact taken.consistent.draft held
  · rw [drafts_keep] at held
    split_ifs at held with same
    · obtain rfl : n = ⟨w.nextNode⟩ := same.symm.trans id
      exact .inr (Nat.le_refl _)
    · exact .inl ⟨_, held⟩

theorem Consistent.keep {w : Workspace} (co : w.Consistent) {n : NodeId} {old d : Node}
    (held : w.drafts[n]? = some old) (id : d.id = old.id) (free : d.Unlinked) :
    w.Follows (w.keep d) := by
  obtain ⟨id', -, issued, absent⟩ := co.draft held
  refine ⟨⟨co.coherent, fun {m d'} held' => ?_, co.stored, co.func⟩, Nat.le_refl _,
    fun {m d'} held' => ?_, fun stored => .inl stored⟩
  · rw [drafts_keep] at held'
    split_ifs at held' with same
    · cases held'
      obtain rfl : n = m := id'.symm.trans (id.symm.trans same)
      exact ⟨same, free, issued, absent⟩
    · exact co.draft held'
  · rw [drafts_keep] at held'
    split_ifs at held' with same
    · obtain rfl : n = m := id'.symm.trans (id.symm.trans same)
      exact .inl ⟨_, held⟩
    · exact .inl ⟨_, held'⟩

theorem Consistent.drop {w : Workspace} (co : w.Consistent) (n : NodeId) : w.Follows (w.drop n) := by
  have held {m : NodeId} {d : Node} (h : (w.drop n).drafts[m]? = some d) :
      w.drafts[m]? = some d := by
    rw [drafts_drop] at h
    split_ifs at h
    exact h
  exact ⟨⟨co.coherent, fun h => co.draft (held h), co.stored, co.func⟩, Nat.le_refl _,
    fun h => .inl ⟨_, held h⟩, fun stored => .inl stored⟩

theorem Consistent.changeDraft {w : Workspace} (co : w.Consistent) (n : NodeId)
    {change : Node → Except Violation Node} (keeps : Node.KeepsFree change) :
    w.Follows (w.changeDraft n change).1 :=
  changeDraft_of_forall co.follows fun _ _ held done =>
    co.keep held (keeps done).1 ((keeps done).2 (co.draft held).2.1)

theorem Consistent.guardDraft {w : Workspace} (co : w.Consistent) (n : NodeId) (v : Value) :
    w.Follows (w.guardDraft n v).1 := by
  refine guardDraft_of_forall co.follows (co.drop n) fun old d held done => ?_
  have kept := (Node.retains_setPredicate v).keepsFree done
  exact co.keep held kept.1 (kept.2 (co.draft held).2.1)

theorem Consistent.make {w : Workspace} (co : w.Consistent) (spec : Node.Spec) :
    w.Follows (w.make spec).1 := by
  refine make_of_forall co.takeNode fun d made => ?_
  obtain ⟨id, free⟩ := Node.Spec.unlinked_build made
  exact co.issue id free

theorem Consistent.clone {w : Workspace} (co : w.Consistent) (n : NodeId) :
    w.Follows (w.clone n).1 :=
  clone_of_forall co.follows fun node _ => co.issue rfl (node.unlinked_clone _)

/-! ## The graph -/

/-- An edit of the graph that adds nothing. -/
theorem Consistent.evolve {w : Workspace} (co : w.Consistent) {h : Graph}
    (evolves : w.graph.Evolves h) : w.Follows { w with graph := h } := by
  refine ⟨⟨evolves.coherent, fun {n d} held => ?_, fun stored => co.stored (evolves.contains stored),
    fun exists_ => co.func (evolves.hasFunc exists_)⟩, Nat.le_refl _, fun held => .inl ⟨_, held⟩,
    fun stored => .inl (evolves.contains stored)⟩
  obtain ⟨id, free, issued, absent⟩ := co.draft held
  exact ⟨id, free, issued, Graph.not_contains_iff.1 fun stored =>
    Graph.not_contains_iff.2 absent (evolves.contains stored)⟩

/-- A property of the workspace as it is and with every graph that the edit returns. -/
theorem edit_of_forall {P : Workspace → Prop} {w : Workspace}
    {result : Except Fault (Graph × Reply)} (same : P w)
    (done : ∀ h reply, result = .ok (h, reply) → P { w with graph := h }) : P (w.edit result).1 := by
  unfold Workspace.edit
  split
  · exact same
  · exact done _ _ rfl

/-- The same for an edit that takes over what an operation on the graph returns. -/
theorem editMap_of_forall {P : Workspace → Prop} {w : Workspace} {α : Type}
    {result : Except Fault α} {reply : α → Graph × Reply} (same : P w)
    (done : ∀ a, result = .ok a → P { w with graph := (reply a).1 }) :
    P (w.edit (result.map reply)).1 := by
  refine edit_of_forall same fun h answer ok => ?_
  obtain ⟨a, ok, taken⟩ := map_eq_ok_iff.1 ok
  have left := done a ok
  rwa [taken] at left

theorem editMapError_of_forall {P : Workspace → Prop} {w : Workspace} {α : Type}
    {result : Except Refusal α} {reply : α → Graph × Reply} (same : P w)
    (done : ∀ a, result = .ok a → P { w with graph := (reply a).1 }) :
    P (w.edit ((result.map reply).mapError .refused)).1 := by
  refine edit_of_forall same fun h answer ok => ?_
  obtain ⟨a, ok, taken⟩ := map_eq_ok_iff.1 (mapError_eq_ok_iff.1 ok)
  have left := done a ok
  rwa [taken] at left

theorem Consistent.editMap {w : Workspace} (co : w.Consistent) {α : Type} {result : Except Fault α}
    {reply : α → Graph × Reply}
    (evolves : ∀ a, result = .ok a → w.graph.Evolves (reply a).1) :
    w.Follows (w.edit (result.map reply)).1 :=
  editMap_of_forall co.follows fun a ok => co.evolve (evolves a ok)

theorem Consistent.editMapError {w : Workspace} (co : w.Consistent) {α : Type}
    {result : Except Refusal α} {reply : α → Graph × Reply}
    (evolves : ∀ a, result = .ok a → w.graph.Evolves (reply a).1) :
    w.Follows (w.edit ((result.map reply).mapError .refused)).1 :=
  editMapError_of_forall co.follows fun a ok => co.evolve (evolves a ok)

/-- An edit that may stop half way. -/
theorem Consistent.editPartly {w : Workspace} (co : w.Consistent) {α : Type}
    {outcome : Graph.Outcome α} (reply : α → Reply) (evolves : w.graph.Evolves outcome.1) :
    w.Follows (w.editPartly outcome reply).1 :=
  co.evolve evolves

/-- A free node that is attached is stored; one that is refused is given up. -/
theorem Consistent.attach {w : Workspace} (co : w.Consistent) (n : NodeId) (f : FuncId)
    (before? : Option NodeId) : w.Follows (w.attach n f before?).1 := by
  have dropped := co.drop n
  refine attach_of_forall co.follows dropped fun d h held done => ?_
  obtain ⟨id, free, issued, absent⟩ := co.draft held
  rw [← id] at absent
  obtain ⟨coherent, contains, hasFunc⟩ := co.coherent.attach free absent done
  refine ⟨⟨coherent, fun {m d'} held' => ?_, fun {m} stored => ?_,
    fun exists_ => co.func ((hasFunc _).1 exists_)⟩, Nat.le_refl _, dropped.free,
    fun {m} stored => ?_⟩
  · obtain ⟨id', free', issued', absent'⟩ := dropped.consistent.draft held'
    refine ⟨id', free', issued', Graph.not_contains_iff.1 fun stored => ?_⟩
    rcases (contains m).1 stored with stored | rfl
    · exact Graph.not_contains_iff.2 absent' stored
    · change (w.drop n).drafts[d.id]? = some d' at held'
      rw [drafts_drop, if_pos id.symm] at held'
      cases held'
  · rcases (contains m).1 stored with stored | rfl
    · exact co.stored stored
    · exact id ▸ issued
  · rcases (contains m).1 stored with stored | rfl
    · exact .inl stored
    · exact .inr ⟨d, id ▸ held⟩

theorem Consistent.addFunc {w : Workspace} (co : w.Consistent) (name : String) :
    w.Follows (w.apply (.addFunc name)).1 := by
  have fresh : ¬ w.graph.HasFunc ⟨w.nextFunc⟩ := fun exists_ =>
    Nat.lt_irrefl _ (co.func exists_)
  refine ⟨⟨co.coherent.addFunc fresh name, co.draft, co.stored, fun {f} exists_ => ?_⟩, Nat.le_refl _,
    fun held => .inl ⟨_, held⟩, fun stored => .inl stored⟩
  rcases (Graph.hasFunc_addFunc w.graph _ f name).1 exists_ with exists_ | rfl
  · exact Nat.lt_succ_of_lt (co.func exists_)
  · exact Nat.lt_succ_self _

/-! ## Histories -/

/-- Every edit leaves a consistent workspace, whatever its outcome. -/
theorem Consistent.apply {w : Workspace} (co : w.Consistent) {e : Edit} (honest : e.plantsUse = false) :
    w.Follows (w.apply e).1 := by
  cases e with
  | reserveNode => exact co.takeNode
  | reserveFunc => exact co.takeFunc
  | make spec => exact co.make spec
  | clone n => exact co.clone n
  | pushInput n v => exact co.changeDraft n (Node.retains_pushInput v).keepsFree
  | setDraftInput n i v => exact co.changeDraft n (Node.retains_setInput i v).keepsFree
  | setDraftPredicate n v => exact co.guardDraft n v
  | addResult n t? => exact co.changeDraft n (Node.retains_addResult t?).keepsFree
  | setDraftType n i t => exact co.changeDraft n (Node.retains_setType i t).keepsFree
  | setDraftName n name => exact co.changeDraft n (Node.retains_rename name).keepsFree
  | forceParent n parent? => exact co.changeDraft n (Node.retains_reparent parent?).keepsFree
  | forceUse n u => cases honest
  | addFunc name => exact co.addFunc name
  | eraseFunc f => exact co.editPartly _ (co.coherent.eraseFunc_evolves f)
  | attach n f before? => exact co.attach n f before?
  | setInput n i v => exact co.editMap fun _ ok => co.coherent.setInput ok
  | setPredicate n v => exact co.editMapError fun _ ok => co.coherent.setPredicate ok
  | setType n i t => exact co.editMap fun _ ok => co.coherent.setType ok
  | setName n name => exact co.editMapError fun _ ok => co.coherent.setName ok
  | clearOperands n => exact co.editMapError fun _ ok => co.coherent.clearOperands ok
  | replaceUses source target => exact co.editPartly _ (co.coherent.replaceUses source target)
  | replaceNode old new => exact co.editPartly _ (co.coherent.replaceNode old new)
  | clearUses n => exact co.editPartly _ (co.coherent.clearUses n)
  | eraseNode f n => exact co.editPartly _ (co.coherent.eraseNode_evolves f n)
  | moveRange source first last target before? =>
    refine co.editMapError fun a ok => ?_
    obtain ⟨k, moved⟩ := a
    exact co.coherent.moveRange ok

theorem consistent_empty : empty.Consistent := by
  have free (n : NodeId) : empty.drafts[n]? = none := Std.ExtTreeMap.getElem?_empty
  refine ⟨Graph.coherent_empty, fun {n d} held => ?_, fun {n} stored => ?_, fun exists_ => ?_⟩
  · rw [free] at held
    cases held
  · exact absurd stored (Graph.not_contains_iff.2 (Graph.node?_empty n))
  · cases exists_

theorem Consistent.run {w : Workspace} (co : w.Consistent) {edits : List Edit}
    (honest : ∀ e ∈ edits, e.plantsUse = false) : (w.run edits).Consistent := by
  unfold Workspace.run
  induction edits generalizing w with
  | nil => exact co
  | cons e edits ih =>
    rw [List.forall_mem_cons] at honest
    exact ih (co.apply honest.1).consistent honest.2

/-- Every reachable workspace is consistent. -/
theorem Reachable.consistent {w : Workspace} (reach : w.Reachable) : w.Consistent := by
  obtain ⟨edits, honest, rfl⟩ := reach
  exact consistent_empty.run honest

/-- A history that adds a node to itself, beside a second node that computes the same. -/
def diamond : List Edit :=
  let t : TensorType := ⟨.float, [2]⟩
  [.addFunc "main",
    .make { op := .placeholder, name := "x", results := [some t] }, .attach ⟨0⟩ ⟨0⟩ none,
    .make { op := .relu, name := "a", inputs := [.result ⟨0⟩ 0], results := [some t] },
    .attach ⟨1⟩ ⟨0⟩ none,
    .make { op := .relu, name := "b", inputs := [.result ⟨0⟩ 0], results := [some t] },
    .attach ⟨2⟩ ⟨0⟩ none,
    .make { op := .add, name := "sum", inputs := [.result ⟨1⟩ 0, .result ⟨1⟩ 0], results := [some t] },
    .attach ⟨3⟩ ⟨0⟩ none]

theorem reachable_diamond : (empty.run diamond).Reachable := ⟨diamond, by decide, rfl⟩

end Workspace

end Dataflow
