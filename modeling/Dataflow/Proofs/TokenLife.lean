import Dataflow.Proofs.Lifecycle
import Dataflow.Proofs.UseAging

/-!
# The life of a token

A token of a use record stands for this record as long as its slot reads the recorded value, over any
history: each edit lets the slot keep its token (`Consistent.continues`), and in a symmetric graph the
token in a slot is that of its record. When the slot reads something else, or the node it read is gone,
the record is out of the use list, and since the list only goes on from there its token is stale from
then on, also when the slot comes to read the value again (`UseList.Later.get?_eq_none`).
-/

namespace Dataflow

namespace Workspace

/-! ## Edits -/

theorem graph_changeDraft (w : Workspace) (n : NodeId) (change : Node → Except Violation Node) :
    (w.changeDraft n change).1.graph = w.graph :=
  changeDraft_of_forall (P := fun w' => w'.graph = w.graph) rfl fun _ _ _ _ => rfl

theorem graph_guardDraft (w : Workspace) (n : NodeId) (v : Value) :
    (w.guardDraft n v).1.graph = w.graph :=
  guardDraft_of_forall (P := fun w' => w'.graph = w.graph) rfl rfl fun _ _ _ _ => rfl

theorem graph_make (w : Workspace) (spec : Node.Spec) : (w.make spec).1.graph = w.graph :=
  make_of_forall (P := fun w' => w'.graph = w.graph) rfl fun _ _ => rfl

theorem graph_clone (w : Workspace) (n : NodeId) : (w.clone n).1.graph = w.graph :=
  clone_of_forall (P := fun w' => w'.graph = w.graph) rfl fun _ _ => rfl

theorem Consistent.continues_attach {w : Workspace} (co : w.Consistent) (n : NodeId) (f : FuncId)
    (before? : Option NodeId) : w.graph.Continues (w.attach n f before?).1.graph := by
  refine attach_of_forall (P := fun w' => w.graph.Continues w'.graph) (.refl _) (.refl _)
    fun d h held done => ?_
  obtain ⟨rfl, -, -, absent⟩ := co.draft held
  exact co.coherent.owned.continues_attach absent done

/-- Over every edit, slots that read the same value keep their tokens, and use lists go on. -/
theorem Consistent.continues {w : Workspace} (co : w.Consistent) (e : Edit) :
    w.graph.Continues (w.apply e).1.graph := by
  have map {α : Type} {result : Except Fault α} {reply : α → Graph × Reply}
      (done : ∀ a, result = .ok a → w.graph.Continues (reply a).1) :
      w.graph.Continues (w.edit (result.map reply)).1.graph :=
    editMap_of_forall (P := fun w' => w.graph.Continues w'.graph) (.refl _) done
  have mapError {α : Type} {result : Except Refusal α} {reply : α → Graph × Reply}
      (done : ∀ a, result = .ok a → w.graph.Continues (reply a).1) :
      w.graph.Continues (w.edit ((result.map reply).mapError .refused)).1.graph :=
    editMapError_of_forall (P := fun w' => w.graph.Continues w'.graph) (.refl _) done
  cases e with
  | reserveNode | reserveFunc => exact .refl _
  | make spec => exact w.graph_make spec ▸ .refl _
  | clone n => exact w.graph_clone n ▸ .refl _
  | pushInput | setDraftInput | addResult | setDraftType | setDraftName | forceParent | forceUse =>
    rw [Workspace.apply, graph_changeDraft]
    exact .refl _
  | setDraftPredicate n v => exact w.graph_guardDraft n v ▸ .refl _
  | addFunc name => exact .of_operand (.refl _) fun _ _ => rfl
  | eraseFunc f => exact (w.graph.outlastsErasing_sheds.eraseFunc (.refl _) f).continues
  | attach n f before? => exact co.continues_attach n f before?
  | setInput n i v => exact map fun _ ok => Graph.continues_setInput ok
  | setPredicate n v => exact mapError fun _ ok => Graph.continues_setPredicate ok
  | setType n i t => exact map fun _ ok => Graph.continues_setType ok
  | setName n name => exact mapError fun _ ok => Graph.continues_setName ok
  | clearOperands n => exact mapError fun _ ok => Graph.continues_clearOperands ok
  | replaceUses source target => exact (w.graph.patched_replaceUses source target).continues
  | replaceNode old new => exact co.coherent.symmetric.continues_replaceNode old new
  | clearUses n => exact (w.graph.patched_clearUses n).continues
  | eraseNode f n => exact (w.graph.outlastsErasing_sheds.eraseNode (.refl _) f n).continues
  | moveRange source first last target before? =>
    refine mapError fun a ok => ?_
    obtain ⟨k, moved⟩ := a
    exact Graph.continues_moveRange ok

/-! ## Histories -/

theorem run_append (w : Workspace) (edits more : List Edit) :
    w.run (edits ++ more) = (w.run edits).run more :=
  List.foldl_append

section Histories

variable {w : Workspace} {edits : List Edit}

/-- A node that is stored before and after a history is stored all the time. -/
theorem Consistent.stored_of_run (co : w.Consistent) (edits more : List Edit)
    (honest : ∀ e ∈ edits ++ more, e.plantsUse = false) {n : NodeId} {node node' : Node}
    (stored : w.graph.node? n = some node)
    (stored' : ((w.run edits).run more).graph.node? n = some node') :
    ∃ node, (w.run edits).graph.node? n = some node := by
  rw [List.forall_mem_append] at honest
  have stage {w : Workspace} (co : w.Consistent) {node : Node}
      (stored : w.graph.node? n = some node) : w.stage n = .stored :=
    stage_of_stored (co.stored (Graph.contains_of_node? stored)) (co.unheld stored) stored
  have before := co.rank_le_run honest.1 n
  have after := (co.run honest.1).rank_le_run honest.2 n
  rw [stage co stored] at before
  rw [stage ((co.run honest.1).run honest.2) stored'] at after
  refine Graph.contains_iff.1 (of_stage_eq_stored ?_)
  cases between : (w.run edits).stage n <;> simp_all [Stage.rank]

/-- The use list of a node goes on as long as the node is stored. -/
theorem Consistent.later_run (co : w.Consistent) (honest : ∀ e ∈ edits, e.plantsUse = false)
    {p : NodeId} {node node' : Node} (stored : w.graph.node? p = some node)
    (stored' : (w.run edits).graph.node? p = some node') : node.uses.Later node'.uses := by
  induction edits generalizing w node with
  | nil =>
    obtain rfl := Option.some.inj (stored.symm.trans stored')
    exact .refl _
  | cons e edits ih =>
    obtain ⟨next, stored₁⟩ := co.stored_of_run [e] edits honest stored stored'
    rw [List.forall_mem_cons] at honest
    exact ((co.continues e).uses stored stored₁).trans
      (ih (co.apply honest.1).consistent honest.2 stored₁ stored')

/-- A slot that goes on reading a value keeps the token. -/
theorem Consistent.operand?_run (co : w.Consistent) (honest : ∀ e ∈ edits, e.plantsUse = false)
    {x : NodeId} {s : Slot} {o : Operand} (held : w.graph.operand? x s = some o)
    (connected : o.value ≠ .null)
    (reads : ∀ i ≤ edits.length, (w.run (edits.take i)).graph.reads? x s = some o.value) :
    (w.run edits).graph.operand? x s = some o := by
  induction edits generalizing w with
  | nil => exact held
  | cons e edits ih =>
    rw [List.forall_mem_cons] at honest
    have next := reads 1 (by simp)
    obtain ⟨o', held', same⟩ := Option.map_eq_some_iff.1 next
    obtain rfl := (co.continues e).token held held' connected same
    exact ih (co.apply honest.1).consistent honest.2 held' fun i hi =>
      reads (i + 1) (Nat.succ_le_succ hi)

end Histories

/-- Every token of a use list stands for a record, and as long as the slot of the record reads the
recorded value, over any history, the token stands for just this record in the list. From the first
time on that the slot reads something else, or that either node is not stored, the token stands for no
record of the list, provided that less than `2 ^ 32` records have been removed from its cell. -/
theorem Reachable.token_lives_with_edge {w : Workspace} (reach : w.Reachable) {p : NodeId}
    {node : Node} (stored : w.graph.node? p = some node) :
    (∀ i? t, t ∈ node.uses.tokensOf i? → ∃ use, (t, use) ∈ node.uses.entries) ∧
    ∀ t u slot v, (t, ⟨u, slot, v⟩) ∈ node.uses.entries →
      ∀ edits : List Edit, (∀ e ∈ edits, e.plantsUse = false) →
      ((∀ i ≤ edits.length, (w.run (edits.take i)).graph.reads? u slot = some v) →
        (w.run edits).graph.record? p t = some ⟨u, slot, v⟩) ∧
      ∀ i ≤ edits.length,
        (w.run (edits.take i)).graph.reads? u slot ≠ some v ∨
          ¬ (w.run (edits.take i)).graph.contains p →
        (∀ node', (w.run edits).graph.node? p = some node' →
          node'.uses.slab.emptied t.index < node.uses.slab.emptied t.index + 2 ^ 32) →
        (w.run edits).graph.record? p t = none := by
  have co := reach.consistent
  refine ⟨fun i? t ht => ?_, fun t u slot v entry edits honest => ⟨fun reads => ?_,
    fun i _ changed few => ?_⟩⟩
  · obtain ⟨e, he, rfl⟩ := List.mem_map.1 ht
    exact ⟨e.2, List.mem_of_mem_filter he⟩
  · have recorded := Graph.record?_eq_some_iff_mem.2 ⟨node, stored, entry⟩
    obtain ⟨hp, held⟩ := co.coherent.symmetric.record recorded
    have kept := co.operand?_run honest held (Value.ne_null_of_node? hp) reads
    rcases (co.run honest).coherent.symmetric.slot kept with null | ⟨q, t', hq, ht', recorded'⟩
    · exact absurd (congrArg Operand.value null) (Value.ne_null_of_node? hp)
    · obtain rfl := Option.some.inj (hp.symm.trans hq)
      obtain rfl := Option.some.inj ht'
      exact recorded'
  · have split : w.run edits = (w.run (edits.take i)).run (edits.drop i) := by
      rw [← run_append, List.take_append_drop]
    rw [split] at few ⊢
    rw [← List.take_append_drop i edits] at honest
    cases final : ((w.run (edits.take i)).run (edits.drop i)).graph.node? p with
    | none => rw [Graph.record?, final, Option.bind_none]
    | some node'' =>
      obtain ⟨node', between⟩ := co.stored_of_run (edits.take i) (edits.drop i) honest stored final
      rw [List.forall_mem_append] at honest
      have co' := co.run honest.1
      rw [Graph.record?, final, Option.bind_some]
      refine (co.later_run honest.1 stored between).get?_eq_none
        (co'.later_run honest.2 between final) (node.uses.get?_eq_some_iff.2 entry) (fun kept => ?_)
        (few node'' final)
      -- the slot would hold the token and read the value if the record were still there
      have held := (co'.coherent.symmetric.record (Graph.record?_eq_some_iff.2 ⟨_, between, kept⟩)).2
      refine changed.elim (fun other => other ?_) fun erased => erased ?_
      · rw [Graph.reads?, held, Option.map_some]
      · exact Graph.contains_of_node? between

/-- A slot that is let read another value and then the old one again gets a new token. -/
theorem token_lives_with_edge_diamond :
    let w := empty.run diamond
    let v : Value := .result ⟨1⟩ 0
    let edits : List Edit := [.setInput ⟨3⟩ 0 (.result ⟨0⟩ 0), .setInput ⟨3⟩ 0 v]
    w.Reachable ∧ (∀ e ∈ edits, e.plantsUse = false) ∧
      (w.run edits).graph.record? ⟨1⟩ ⟨1, 0⟩ = some ⟨⟨3⟩, .input 1, v⟩ ∧
      (w.run (edits.take 1)).graph.reads? ⟨3⟩ (.input 0) ≠ some v ∧
      (w.run edits).graph.record? ⟨1⟩ ⟨0, 0⟩ = none ∧
      (w.run edits).graph.record? ⟨1⟩ ⟨0, 1⟩ = some ⟨⟨3⟩, .input 0, v⟩ := by
  intro w v edits
  have honest : ∀ e ∈ edits, e.plantsUse = false := by decide
  obtain ⟨node, stored, entries⟩ : ∃ node, w.graph.node? ⟨1⟩ = some node ∧ node.uses.entries =
      [(⟨0, 0⟩, ⟨⟨3⟩, .input 0, v⟩), (⟨1, 0⟩, ⟨⟨3⟩, .input 1, v⟩)] :=
    Option.map_eq_some_iff.1 (by decide +kernel)
  obtain ⟨-, life⟩ := Reachable.token_lives_with_edge reachable_diamond stored
  have first := life ⟨0, 0⟩ ⟨3⟩ (.input 0) v (by simp [entries]) edits honest
  have second := life ⟨1, 0⟩ ⟨3⟩ (.input 1) v (by simp [entries]) edits honest
  have other : (w.run (edits.take 1)).graph.reads? ⟨3⟩ (.input 0) ≠ some v := by decide +kernel
  have emptied : ((w.run edits).graph.node? ⟨1⟩).map (·.uses.slab.emptied 0) = some 1 := by
    decide +kernel
  refine ⟨reachable_diamond, honest, second.1 (by decide +kernel), other,
    first.2 1 (by decide) (.inl other) fun node' stored' => ?_, by decide +kernel⟩
  rw [stored', Option.map_some, Option.some.injEq] at emptied
  change node'.uses.slab.emptied 0 < _
  omega

end Workspace

end Dataflow
