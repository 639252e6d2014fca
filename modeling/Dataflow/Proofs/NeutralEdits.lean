import Dataflow.Proofs.Attachment
import Dataflow.Proofs.Merging

/-!
# Edits that keep a workspace verified

Whether a graph is well formed is a matter of the structural keys of its nodes: neither names nor owners
nor the order of the rosters count (`WellFormed.of_keys`), so nodes can be renamed and moved, and empty
functions come and go. An unread node can be left out. Conversely a node whose operands fit can be added
anywhere, since nothing reads it yet (`WellFormed.store`), and those of a copy fit because it has the key
of the original.
-/

namespace Dataflow

open Relation

/-! ## What the keys determine -/

namespace Graph

variable {g h : Graph}

/-- Under the same identities, both graphs have nodes with the same structural keys. -/
def SameKeys (g h : Graph) : Prop := ∀ m, (h.node? m).map Node.key = (g.node? m).map Node.key

theorem SameKeys.symm (same : g.SameKeys h) : h.SameKeys g := fun m => (same m).symm

theorem SameKeys.exists_node (same : g.SameKeys h) {m : NodeId} {new : Node}
    (stored : h.node? m = some new) : ∃ old, g.node? m = some old ∧ old.key = new.key := by
  have eq := same m
  rw [stored, Option.map_some, eq_comm, Option.map_eq_some_iff] at eq
  exact eq

theorem SameKeys.contains (same : g.SameKeys h) {m : NodeId} (stored : h.contains m) : g.contains m := by
  obtain ⟨new, stored⟩ := contains_iff.1 stored
  obtain ⟨old, stored, -⟩ := same.exists_node stored
  exact contains_of_node? stored

theorem SameKeys.reads? (same : g.SameKeys h) (x : NodeId) (s : Slot) :
    h.reads? x s = g.reads? x s := by
  rw [reads?_eq_bind_key, same, reads?_eq_bind_key]

theorem SameKeys.thins (same : g.SameKeys h) : g.Thins h :=
  thins_of_reads (fun x s _ _ read _ => same.reads? x s ▸ read) same.contains

theorem SameKeys.key_eq (same : g.SameKeys h) {m : NodeId} {old new : Node}
    (before : g.node? m = some old) (after : h.node? m = some new) : new.key = old.key := by
  obtain ⟨old', before', key⟩ := same.exists_node after
  obtain rfl := Option.some.inj (before.symm.trans before')
  exact key.symm

/-- Rewiring that leaves the slots of a node with what they read keeps its key. -/
theorem Rewired.key_eq (r : g.Rewired h) {m : NodeId} {old new : Node} (before : g.node? m = some old)
    (after : h.node? m = some new) (reads : ∀ s, h.reads? m s = g.reads? m s) : new.key = old.key := by
  obtain ⟨old', before', same⟩ := r.exists_node after
  obtain rfl := Option.some.inj (before.symm.trans before')
  obtain ⟨-, op, results, -⟩ := Node.same_of_bare same
  have unchanged (s : Slot) : h.reads? m s = (g.reads? m s).map id := by
    rw [reads, Option.map_id_fun, id_eq]
  obtain ⟨inputs, predicate⟩ := operands_of_reads before after unchanged
  rw [List.map_id] at inputs
  exact Node.key_eq_iff.2 ⟨op.symm, results.symm, predicate, inputs⟩

/-- Rewiring that leaves every slot with what it reads keeps all keys. -/
theorem Rewired.sameKeys (r : g.Rewired h) (reads : ∀ x s, h.reads? x s = g.reads? x s) :
    g.SameKeys h := by
  intro m
  cases after : h.node? m with
  | none =>
    have absent := not_contains_iff.2 after
    rw [r.contains, not_contains_iff] at absent
    rw [absent]
  | some new =>
    obtain ⟨old, before, -⟩ := r.exists_node after
    rw [before, Option.map_some, Option.map_some, r.key_eq before after (reads m)]

/-! ## Well-formed nodes -/

theorem SameKeys.keepsResults (same : g.SameKeys h) : g.KeepsResults h := fun p node stored => by
  obtain ⟨node', stored', key⟩ := same.symm.exists_node stored
  exact ⟨node', stored', congrArg Node.Key.results key⟩

/-- A node with the key of a well-formed one is well formed wherever the results that it reads are. -/
theorem WellFormedNode.of_key {old new : Node} (formed : g.WellFormedNode old)
    (keeps : g.KeepsResults h) (key : new.key = old.key) : h.WellFormedNode new := by
  simp only [Node.key, Node.Key.mk.injEq] at key
  obtain ⟨op, results, predicate, inputs⟩ := key
  have count : new.inputs.length = old.inputs.length := by
    simpa [Node.inputValues] using congrArg List.length inputs
  have types : new.inputValues.map h.readType? = old.inputValues.map g.readType? := by
    rw [inputs]
    exact List.map_congr_left fun v hv => keeps.readType? (formed.inputs v hv)
  obtain ⟨ins, outs, reads, produces, fits⟩ := formed.fits
  refine ⟨by rw [op, results, formed.result_count], results ▸ formed.typed,
    by rw [op, count]; exact formed.arity,
    fun v hv => keeps.hasResult (formed.inputs v (inputs ▸ hv)), ?_,
    ins, outs, types.trans reads, results.trans produces, op ▸ fits⟩
  rw [predicate]
  rcases formed.predicate with none | ⟨t, typed, bool⟩
  · exact .inl none
  · exact .inr ⟨t, keeps.hasType typed, bool⟩

/-- Whatever a well-formed node reads is stored. -/
theorem WellFormedNode.readable {n : Node} (formed : g.WellFormedNode n) :
    ∀ e ∈ n.operands, g.Readable e.2 := fun e he => by
  obtain ⟨ne, o, held, same⟩ := Node.mem_operands.1 he
  exact same ▸ (formed.hasResult held (same ▸ ne)).readable

/-! ## Well-formed graphs -/

/-- A graph is as well formed as any other with the same keys. -/
theorem WellFormed.of_keys (formed : g.WellFormed) (same : g.SameKeys h) : h.WellFormed where
  node stored := by
    obtain ⟨old, before, key⟩ := same.exists_node stored
    exact (formed.node before).of_key same.keepsResults key.symm
  acyclic := same.thins.acyclic formed.acyclic

theorem sameKeys_modifyNode {n : NodeId} {f : Node → Node} (same : ∀ node, (f node).key = node.key) :
    g.SameKeys (g.modifyNode n f) := by
  intro m
  rw [node?_modifyNode]
  split_ifs
  · simp [Function.comp_def, same]
  · rfl

theorem sameKeys_setName {n : NodeId} {name : String} (done : g.setName n name = .ok h) :
    g.SameKeys h := by
  rw [eq_of_setName done]
  exact sameKeys_modifyNode fun _ => rfl

theorem sameKeys_moveRange {source target : FuncId} {first last : NodeId} {before? : Option NodeId}
    {moved : Nat} (done : g.moveRange source first last target before? = .ok (h, moved)) :
    g.SameKeys h := by
  obtain ⟨nodes, -, done⟩ := bind_eq_ok_iff.1 done
  cases done
  intro m
  rw [node?_move, Option.map_map]
  congr 1
  funext node
  rw [Function.comp_apply]
  split_ifs <;> rfl

/-- An unread node can be erased from a well-formed graph. -/
theorem Coherent.wellFormed_eraseNode (co : g.Coherent) (formed : g.WellFormed) {n : NodeId}
    (unused : g.allUses n = []) (f : FuncId) : (g.eraseNode f n).1.WellFormed := by
  by_cases listed : g.Lists f n
  · obtain ⟨k, erased, detached⟩ := co.exists_detached listed
    rw [erased]
    exact formed.discard detached (co.symmetric.unread_of_allUses_eq_nil unused) f
  · obtain ⟨e, refused⟩ := co.owned.eraseNode_of_not_lists listed
    rw [refused]
    exact formed

/-- A function without nodes is erased, and nothing happens to the nodes. -/
theorem Owned.eraseFunc_of_nil (own : g.Owned) {func : Func} (hf : func ∈ g.funcs)
    (none : func.nodes = []) :
    g.eraseFunc func.id = ({ g with funcs := g.funcs.filter (·.id ≠ func.id) }, .ok ()) := by
  rw [eraseFunc, guarded_of_ok (own.funcOrRefusal_eq_ok_iff.2 ⟨hf, rfl⟩), none]
  rfl

/-! ## Attaching a copy -/

/-- A well-formed node can be stored: nothing reads it yet. -/
theorem WellFormed.store (formed : g.WellFormed) (sym : g.Symmetric) {n : Node}
    (absent : g.node? n.id = none) (fits : g.WellFormedNode n) (f : FuncId) (before? : Option NodeId) :
    (g.store f n before?).WellFormed := by
  have readable := fits.readable
  have same : (g.withNode n).SameKeys (g.store f n before?) := by
    obtain ⟨k, r, eq⟩ := exists_rewired_store absent readable f before?
    have owned : (g.withNode n).SameKeys (g.withNode { n with parent? := some f }) := fun m => by
      rw [node?_withNode, node?_withNode]
      split_ifs <;> rfl
    have reads (x : NodeId) (s : Slot) : k.reads? x s = (g.withNode n).reads? x s := by
      rw [← reads?_store absent readable f before?, eq]
      rfl
    rw [eq]
    exact fun m => (r.sameKeys (fun x s => (reads x s).trans (owned.reads? x s).symm) m).trans (owned m)
  have keeps : g.KeepsResults (g.withNode n) := fun p node stored => by
    refine ⟨node, ?_, rfl⟩
    rw [node?_withNode, if_neg]
    · exact stored
    · rintro rfl
      rw [absent] at stored
      cases stored
  refine ⟨fun {m new} stored => ?_, sym.acyclic_store formed.acyclic absent readable f before?⟩
  obtain ⟨old, before, key⟩ := same.exists_node stored
  have old_formed : (g.withNode n).WellFormedNode old := by
    rw [node?_withNode] at before
    split_ifs at before
    · cases before
      exact fits.of_key keeps rfl
    · exact (formed.node before).of_key keeps rfl
  exact old_formed.of_key same.keepsResults key.symm

/-- Every function is found in order. -/
def Verified (g : Graph) : Prop := ∀ func ∈ g.funcs, g.funcSound func.id = true

end Graph

/-! ## Workspaces -/

namespace Workspace

variable {w : Workspace}

theorem Consistent.verified_apply (co : w.Consistent) {e : Edit} (honest : e.plantsUse = false)
    (formed : (w.apply e).1.graph.WellFormed) : (w.apply e).1.graph.Verified :=
  (co.apply honest).consistent.coherent.funcSound_iff_wellFormed.2 formed

/-- A free node whose operands fit can be attached anywhere. -/
theorem Consistent.attach_of_fits (co : w.Consistent) (formed : w.graph.WellFormed) {c : NodeId}
    {d : Node} (held : w.drafts[c]? = some d) (free : d.parent? = none)
    (fits : w.graph.WellFormedNode d) {f : FuncId} (exists_ : w.graph.HasFunc f)
    {before? : Option NodeId} (anchor : ∀ b ∈ before?, w.graph.Lists f b) :
    ∃ attached, w.apply (.attach c f before?) = (attached, .ok (.node c)) ∧
      attached.graph.Verified := by
  obtain ⟨id, -, -, absent⟩ := co.draft held
  have stored := co.coherent.owned.attach_of_readable exists_ free anchor fits.readable
  have done : w.apply (.attach c f before?) =
      ({ w.drop c with graph := w.graph.store f d before? }, .ok (.node c)) := by
    simp only [Workspace.apply, Workspace.attach, held, stored]
  have verified := co.verified_apply (e := .attach c f before?) rfl
  rw [done] at verified
  exact ⟨_, done, verified (formed.store co.coherent.symmetric (id ▸ absent) fits f before?)⟩

/-- In a verified reachable workspace all functions stay verified when a node without uses is erased,
nodes are moved or renamed, an empty function is added or erased, or a copy of a stored node is attached
anywhere, which succeeds. -/
theorem Reachable.neutral_edits_verified (reach : w.Reachable) (verified : w.graph.Verified) :
    (∀ f n, w.graph.allUses n = [] → (w.apply (.eraseNode f n)).1.graph.Verified ∧
      (w.graph.Lists f n → (w.apply (.eraseNode f n)).2 = .ok .done)) ∧
    (∀ source first last target before?,
      (w.apply (.moveRange source first last target before?)).1.graph.Verified) ∧
    (∀ n name, (w.apply (.setName n name)).1.graph.Verified ∧
      (w.apply (.setDraftName n name)).1.graph.Verified) ∧
    (∀ name, (w.apply (.addFunc name)).1.graph.Verified) ∧
    (∀ func ∈ w.graph.funcs, func.nodes = [] → (w.apply (.eraseFunc func.id)).1.graph.Verified ∧
      (w.apply (.eraseFunc func.id)).2 = .ok .done) ∧
    ∀ n f before?, w.graph.contains n → w.graph.HasFunc f → (∀ b ∈ before?, w.graph.Lists f b) →
      ∃ c copied attached, w.apply (.clone n) = (copied, .ok (.node c)) ∧
        copied.apply (.attach c f before?) = (attached, .ok (.node c)) ∧ attached.graph.Verified := by
  have co := reach.consistent
  have formed := co.coherent.funcSound_iff_wellFormed.1 verified
  refine ⟨fun f n unused => ⟨?_, fun listed => ?_⟩, fun source first last target before? => ?_,
    fun n name => ⟨?_, ?_⟩, fun name => ?_, fun func hf none => ⟨?_, ?_⟩,
    fun n f before? stored exists_ anchor => ?_⟩
  · exact co.verified_apply rfl (co.coherent.wellFormed_eraseNode formed unused f)
  · obtain ⟨k, erased, -⟩ := co.coherent.eraseNode listed
    simp only [Workspace.apply, editPartly, erased]
    rfl
  · refine co.verified_apply rfl (editMapError_of_forall (P := (·.graph.WellFormed)) formed ?_)
    exact fun a done => formed.of_keys (Graph.sameKeys_moveRange done)
  · refine co.verified_apply rfl (editMapError_of_forall (P := (·.graph.WellFormed)) formed ?_)
    exact fun h done => formed.of_keys (Graph.sameKeys_setName done)
  · refine co.verified_apply rfl ?_
    rw [Workspace.apply, graph_changeDraft]
    exact formed
  · exact co.verified_apply rfl (formed.of_keys fun m => rfl)
  · refine co.verified_apply rfl ?_
    simp only [Workspace.apply, editPartly, co.coherent.owned.eraseFunc_of_nil hf none]
    exact formed.of_keys fun m => rfl
  · simp only [Workspace.apply, editPartly, co.coherent.owned.eraseFunc_of_nil hf none]
    rfl
  · obtain ⟨node, stored⟩ := Graph.contains_iff.1 stored
    have copied := apply_clone ((node?_of_unheld (co.unheld stored)).trans stored)
    have co' := (co.apply (e := .clone n) rfl).consistent
    rw [copied] at co'
    obtain ⟨attached, done, verified'⟩ := co'.attach_of_fits formed
      ((drafts_keep _ _ _).trans (if_pos rfl)) rfl
      ((formed.node stored).of_key (.refl _) (node.key_clone ⟨w.nextNode⟩)) exists_ anchor
    exact ⟨_, _, attached, copied, done, verified'⟩

/-- The sum is unused and can be erased or copied to the front, and the nodes it reads can be moved
behind it. -/
theorem neutral_edits_verified_diamond :
    let w := empty.run diamond
    w.Reachable ∧ w.graph.Verified ∧ w.graph.allUses ⟨3⟩ = [] ∧
      (w.apply (.eraseNode ⟨0⟩ ⟨3⟩)).2 = .ok .done ∧ (w.apply (.eraseNode ⟨0⟩ ⟨3⟩)).1.graph.Verified ∧
      (w.apply (.moveRange ⟨0⟩ ⟨0⟩ ⟨1⟩ ⟨0⟩ none)).1.graph.Verified ∧
      ∃ c copied attached, w.apply (.clone ⟨3⟩) = (copied, .ok (.node c)) ∧
        copied.apply (.attach c ⟨0⟩ (some ⟨0⟩)) = (attached, .ok (.node c)) ∧
        attached.graph.Verified := by
  intro w
  have verified : w.graph.Verified := by unfold Graph.Verified; decide
  have unused : w.graph.allUses ⟨3⟩ = [] := by decide +kernel
  have listed : w.graph.Lists ⟨0⟩ ⟨0⟩ ∧ w.graph.Lists ⟨0⟩ ⟨3⟩ := by
    unfold Graph.Lists
    decide +kernel
  obtain ⟨erase, move, -, -, -, copy⟩ := Reachable.neutral_edits_verified reachable_diamond verified
  refine ⟨reachable_diamond, verified, unused, (erase ⟨0⟩ ⟨3⟩ unused).2 listed.2,
    (erase ⟨0⟩ ⟨3⟩ unused).1, move _ _ _ _ _, copy ⟨3⟩ ⟨0⟩ (some ⟨0⟩) ?_ listed.1.hasFunc ?_⟩
  · exact reachable_diamond.consistent.coherent.owned.contains listed.2
  · exact fun b hb => Option.some.inj hb ▸ listed.1

end Workspace

end Dataflow
