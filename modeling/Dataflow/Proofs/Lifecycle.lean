import Dataflow.Proofs.History

/-!
# The life of a node

A node identity is first unissued, then that of a free node, then that of a stored node, and gone at
last; it may skip stages but never goes back (`Follows.rank_le`). What is gone is found nowhere: it is
neither a free nor a stored node, and no slot or record names it (`Consistent.not_named`). A free node
goes without having been stored only if it cannot be attached, or is guarded although a parent was
written into it by hand.
-/

namespace Dataflow

/-- Where a node identity stands. -/
inductive Stage where
  | unissued
  | free
  | stored
  | gone
deriving DecidableEq, Repr

/-- Stages in the order in which a node goes through them. -/
def Stage.rank : Stage → Nat
  | unissued => 0
  | free => 1
  | stored => 2
  | gone => 3

namespace Workspace

/-- The stage of a node identity. -/
def stage (w : Workspace) (n : NodeId) : Stage :=
  if w.nextNode ≤ n.number then .unissued
  else match w.drafts[n]?, w.graph.node? n with
    | some _, _ => .free
    | none, some _ => .stored
    | none, none => .gone

theorem stage_of_draft {w : Workspace} {n : NodeId} {d : Node} (issued : n.number < w.nextNode)
    (held : w.drafts[n]? = some d) : w.stage n = .free := by
  rw [stage, if_neg (Nat.not_le.2 issued), held]

theorem stage_of_stored {w : Workspace} {n : NodeId} {node : Node} (issued : n.number < w.nextNode)
    (unheld : w.drafts[n]? = none) (stored : w.graph.node? n = some node) :
    w.stage n = .stored := by
  rw [stage, if_neg (Nat.not_le.2 issued), unheld, stored]

theorem stage_of_absent {w : Workspace} {n : NodeId} (issued : n.number < w.nextNode)
    (unheld : w.drafts[n]? = none) (absent : w.graph.node? n = none) : w.stage n = .gone := by
  rw [stage, if_neg (Nat.not_le.2 issued), unheld, absent]

theorem of_stage_eq_gone {w : Workspace} {n : NodeId} (gone : w.stage n = .gone) :
    n.number < w.nextNode ∧ w.drafts[n]? = none ∧ w.graph.node? n = none := by
  unfold stage at gone
  split_ifs at gone with unissued
  refine ⟨Nat.not_le.1 unissued, ?_⟩
  cases held : w.drafts[n]? <;> cases stored : w.graph.node? n <;> simp_all

theorem of_stage_eq_free {w : Workspace} {n : NodeId} (free : w.stage n = .free) :
    ∃ d, w.drafts[n]? = some d := by
  unfold stage at free
  split_ifs at free
  cases held : w.drafts[n]? with
  | some d => exact ⟨d, rfl⟩
  | none => cases stored : w.graph.node? n <;> simp_all

theorem of_stage_eq_stored {w : Workspace} {n : NodeId} (stored : w.stage n = .stored) :
    w.graph.contains n := by
  unfold stage at stored
  split_ifs at stored
  rw [Graph.contains_eq]
  cases held : w.drafts[n]? <;> cases found : w.graph.node? n <;> simp_all

/-! ## Forward -/

theorem Consistent.unheld {w : Workspace} (co : w.Consistent) {n : NodeId} {node : Node}
    (stored : w.graph.node? n = some node) : w.drafts[n]? = none := by
  rw [Option.eq_none_iff_forall_ne_some]
  intro d held
  rw [(co.draft held).2.2.2] at stored
  cases stored

theorem Follows.unheld {w w' : Workspace} (h : w.Follows w') {n : NodeId}
    (issued : n.number < w.nextNode) (unheld : w.drafts[n]? = none) : w'.drafts[n]? = none := by
  rw [Option.eq_none_iff_forall_ne_some]
  intro d held
  rcases h.free held with ⟨d, held⟩ | later
  · rw [unheld] at held
    cases held
  · omega

theorem Follows.absent {w w' : Workspace} (h : w.Follows w') {n : NodeId}
    (unheld : w.drafts[n]? = none) (absent : w.graph.node? n = none) :
    w'.graph.node? n = none := by
  rw [Option.eq_none_iff_forall_ne_some]
  intro node stored
  rcases h.stored (n := n) (Graph.contains_of_node? stored) with stored | ⟨d, held⟩
  · exact absurd stored (Graph.not_contains_iff.2 absent)
  · rw [unheld] at held
    cases held

/-- No node goes back. -/
theorem Follows.rank_le {w w' : Workspace} (h : w.Follows w') (n : NodeId) :
    (w.stage n).rank ≤ (w'.stage n).rank := by
  by_cases later : w.nextNode ≤ n.number
  · rw [stage, if_pos later]
    exact Nat.zero_le _
  have kept := h.nextNode_le
  have issued : n.number < w.nextNode := by omega
  have issued' : n.number < w'.nextNode := by omega
  cases held : w.drafts[n]? with
  | some d =>
    rw [stage_of_draft issued held, stage, if_neg (Nat.not_le.2 issued')]
    split <;> decide
  | none =>
    have unheld := h.unheld issued held
    cases stored : w.graph.node? n with
    | some node =>
      rw [stage_of_stored issued held stored, stage, if_neg (Nat.not_le.2 issued'), unheld]
      split <;> simp_all [Stage.rank]
    | none =>
      have gone := stage_of_absent issued' unheld (h.absent held stored)
      exact Nat.le_of_eq (by rw [stage_of_absent issued held stored, gone])

/-- Only free nodes become stored. -/
theorem Follows.free_or_stored {w w' : Workspace} (co : w.Consistent) (h : w.Follows w') {n : NodeId}
    (stored : w'.stage n = .stored) : w.stage n = .free ∨ w.stage n = .stored := by
  rcases h.stored (of_stage_eq_stored stored) with stored | ⟨d, held⟩
  · have issued := co.stored stored
    obtain ⟨node, stored⟩ := Graph.contains_iff.1 stored
    exact .inr (stage_of_stored issued (co.unheld stored) stored)
  · exact .inl (stage_of_draft (co.draft held).2.2.1 held)

/-- No node goes back over any history. -/
theorem Consistent.rank_le_run {w : Workspace} (co : w.Consistent) {edits : List Edit}
    (honest : ∀ e ∈ edits, e.plantsUse = false) (n : NodeId) :
    (w.stage n).rank ≤ ((w.run edits).stage n).rank := by
  unfold Workspace.run
  induction edits generalizing w with
  | nil => exact Nat.le_refl _
  | cons e edits ih =>
    rw [List.forall_mem_cons] at honest
    have step := co.apply honest.1
    exact Nat.le_trans (step.rank_le n) (ih step.consistent honest.2)

theorem Stage.eq_gone {s : Stage} (h : Stage.gone.rank ≤ s.rank) : s = .gone := by
  cases s <;> simp_all [Stage.rank]

/-! ## What is gone -/

/-- What is not stored is not named by slots or records. -/
theorem Consistent.not_named {w : Workspace} (co : w.Consistent) {n : NodeId}
    (absent : w.graph.node? n = none) :
    (∀ user s v, w.graph.reads? user s = some v → v.node? ≠ some n) ∧
      ∀ p t u, w.graph.record? p t = some u → u.user ≠ n ∧ u.value.node? ≠ some n := by
  have sym := co.coherent.symmetric
  have unread : ∀ user s v, w.graph.reads? user s = some v → v.node? ≠ some n := by
    intro user s v read hn
    exact Graph.not_contains_iff.2 absent (sym.readable read n hn)
  refine ⟨unread, fun p t u recorded => ?_⟩
  obtain ⟨-, held⟩ := sym.record recorded
  refine ⟨?_, unread u.user u.slot u.value (by rw [Graph.reads?, held, Option.map_some])⟩
  rintro rfl
  rw [Graph.operand?, absent] at held
  cases held

theorem Consistent.stage_erased {w : Workspace} (co : w.Consistent) {n : NodeId}
    (stored : w.graph.contains n) {h : Graph} (erased : ¬ h.contains n) :
    { w with graph := h }.stage n = .gone := by
  have issued := co.stored stored
  obtain ⟨node, stored⟩ := Graph.contains_iff.1 stored
  exact stage_of_absent issued (co.unheld stored) (Graph.not_contains_iff.1 erased)

/-- An erased node is gone. -/
theorem Consistent.stage_eraseNode {w : Workspace} (co : w.Consistent) {f : FuncId} {n : NodeId}
    (done : (w.apply (.eraseNode f n)).2 = .ok .done) :
    (w.apply (.eraseNode f n)).1.stage n = .gone := by
  by_cases listed : w.graph.Lists f n
  · obtain ⟨h, eq, er⟩ := co.coherent.eraseNode listed
    have erased : ¬ h.contains n := fun stored => (er.contains.1 stored).2 (List.mem_singleton_self n)
    have left : (w.apply (.eraseNode f n)).1 = { w with graph := h } := by
      simp only [Workspace.apply, Workspace.editPartly, eq]
    rw [left]
    exact co.stage_erased (co.coherent.owned.contains listed) erased
  · obtain ⟨e, eq⟩ := co.coherent.owned.eraseNode_of_not_lists listed
    simp only [Workspace.apply, Workspace.editPartly, eq] at done
    cases done

/-- The nodes of an erased function are gone. -/
theorem Consistent.stage_eraseFunc {w : Workspace} (co : w.Consistent) {f : FuncId} {n : NodeId}
    (listed : w.graph.Lists f n) : (w.apply (.eraseFunc f)).1.stage n = .gone := by
  obtain ⟨h, eq, -, contains, -⟩ := co.coherent.eraseFunc listed.hasFunc
  have left : (w.apply (.eraseFunc f)).1 = { w with graph := h } := by
    simp only [Workspace.apply, Workspace.editPartly, eq]
  rw [left]
  exact co.stage_erased (co.coherent.owned.contains listed) fun stored =>
    ((contains n).1 stored).2 listed

/-- A node that could not be attached is gone. -/
theorem Consistent.stage_attach_failed {w : Workspace} (co : w.Consistent) {f : FuncId} {n : NodeId}
    {before? : Option NodeId} {e : Fault} (failed : (w.apply (.attach n f before?)).2 = .error e) :
    (w.apply (.attach n f before?)).1.stage n = .gone := by
  cases held : w.drafts[n]? with
  | none =>
    simp only [Workspace.apply, Workspace.attach, held] at failed
    cases failed
  | some d =>
    obtain ⟨-, -, issued, absent⟩ := co.draft held
    cases outcome : w.graph.attach f d before? with
    | ok h =>
      simp only [Workspace.apply, Workspace.attach, held, outcome] at failed
      cases failed
    | error e =>
      simp only [Workspace.apply, Workspace.attach, held, outcome]
      exact stage_of_absent issued (by rw [drafts_drop, if_pos rfl]) absent

/-! ## Losing a free node -/

theorem exists_draft_keep {w : Workspace} {n : NodeId} (d : Node) (held : ∃ d, w.drafts[n]? = some d) :
    ∃ d', (w.keep d).drafts[n]? = some d' := by
  rw [drafts_keep]
  split_ifs
  · exact ⟨d, rfl⟩
  · exact held

theorem exists_draft_drop {w : Workspace} {n m : NodeId} (ne : m ≠ n)
    (held : ∃ d, w.drafts[n]? = some d) : ∃ d', (w.drop m).drafts[n]? = some d' := by
  rw [drafts_drop, if_neg ne]
  exact held

theorem exists_draft_changeDraft {w : Workspace} {n : NodeId} (m : NodeId)
    (change : Node → Except Violation Node) (held : ∃ d, w.drafts[n]? = some d) :
    ∃ d', (w.changeDraft m change).1.drafts[n]? = some d' :=
  changeDraft_of_forall (P := fun w' => ∃ d', w'.drafts[n]? = some d') held fun _ d _ _ =>
    exists_draft_keep d held

theorem drafts_edit (w : Workspace) (result : Except Fault (Graph × Reply)) :
    (w.edit result).1.drafts = w.drafts := by
  unfold edit
  split <;> rfl

theorem exists_draft_apply {w : Workspace} {n : NodeId} {e : Edit}
    (held : ∃ d, w.drafts[n]? = some d) (attach : ∀ f before?, e ≠ .attach n f before?)
    (guard : ∀ v, e ≠ .setDraftPredicate n v) : ∃ d, (w.apply e).1.drafts[n]? = some d := by
  let holds (w' : Workspace) : Prop := ∃ d, w'.drafts[n]? = some d
  cases e with
  | reserveNode | reserveFunc | addFunc | eraseFunc | replaceUses | replaceNode | clearUses
  | eraseNode => exact held
  | make spec => exact make_of_forall (P := holds) held fun d _ => exists_draft_keep d held
  | clone m => exact clone_of_forall (P := holds) held fun _ _ => exists_draft_keep _ held
  | pushInput | setDraftInput | addResult | setDraftType | setDraftName | forceParent | forceUse =>
    exact exists_draft_changeDraft _ _ held
  | setDraftPredicate m v =>
    have ne : m ≠ n := fun same => guard v (same ▸ rfl)
    exact guardDraft_of_forall (P := holds) held (exists_draft_drop ne held) fun _ d _ _ =>
      exists_draft_keep d held
  | attach m f before? =>
    have ne : m ≠ n := fun same => attach f before? (same ▸ rfl)
    exact attach_of_forall (P := holds) held (exists_draft_drop ne held) fun _ _ _ _ =>
      exists_draft_drop ne held
  | setInput | setPredicate | setType | setName | clearOperands | moveRange =>
    unfold apply
    rw [drafts_edit]
    exact held

/-- A free node is lost only when it cannot be attached or guarded. -/
theorem Consistent.free_lost {w : Workspace} (co : w.Consistent) {e : Edit} {n : NodeId}
    (free : w.stage n = .free) (gone : (w.apply e).1.stage n = .gone) :
    (∃ fault, (w.apply e).2 = .error fault) ∧
      ((∃ f before?, e = .attach n f before?) ∨ ∃ v, e = .setDraftPredicate n v) := by
  obtain ⟨d, held⟩ := of_stage_eq_free free
  obtain ⟨-, unheld, absent⟩ := of_stage_eq_gone gone
  have lost : (∃ f before?, e = .attach n f before?) ∨ ∃ v, e = .setDraftPredicate n v := by
    by_contra other
    rw [not_or, not_exists, not_exists] at other
    obtain ⟨d, kept⟩ := exists_draft_apply ⟨d, held⟩ (fun f before? h => other.1 f ⟨before?, h⟩) other.2
    rw [unheld] at kept
    cases kept
  refine ⟨?_, lost⟩
  obtain ⟨id, free, -, absent'⟩ := co.draft held
  rcases lost with ⟨f, before?, rfl⟩ | ⟨v, rfl⟩
  · cases outcome : w.graph.attach f d before? with
    | error e => exact ⟨.refused e, by simp only [Workspace.apply, Workspace.attach, held, outcome]⟩
    | ok h =>
      rw [← id] at absent'
      obtain ⟨-, contains, -⟩ := co.coherent.attach free absent' outcome
      have stored := (contains n).2 (.inr id.symm)
      simp only [Workspace.apply, Workspace.attach, held, outcome] at absent
      exact absurd stored (Graph.not_contains_iff.2 absent)
  · cases outcome : d.setPredicate v with
    | error e =>
      exact ⟨.violated e, by simp only [Workspace.apply, Workspace.guardDraft, held, outcome]⟩
    | ok d' =>
      have id' := (Node.retains_setPredicate v _ _ outcome).1.trans id
      simp only [Workspace.apply, Workspace.guardDraft, held, outcome, drafts_keep, if_pos id'] at unheld
      cases unheld

/-! ## Ownership and life over histories -/

/-- In a reachable workspace every stored node has exactly one owner, and over any history nodes only
move forward; what is gone is never found or named again. -/
theorem Reachable.ownership_and_lifecycle {w : Workspace} (reach : w.Reachable) :
    (∀ n node, w.graph.node? n = some node → node.id = n ∧ ∃ func ∈ w.graph.funcs,
      node.parent? = some func.id ∧ func.nodes.count n = 1 ∧
        ∀ other ∈ w.graph.funcs, n ∈ other.nodes → other = func) ∧
    (∀ func ∈ w.graph.funcs, ∀ n ∈ func.nodes, ∃ node,
      w.graph.node? n = some node ∧ node.parent? = some func.id) ∧
    w.graph.nodeCount = (w.graph.funcs.map (·.roster.size)).sum ∧
    (∀ edits : List Edit, (∀ e ∈ edits, e.plantsUse = false) → ∀ n,
      (w.stage n).rank ≤ ((w.run edits).stage n).rank ∧
      (w.stage n = .gone → (w.run edits).node? n = none ∧
        (∀ user s v, (w.run edits).graph.reads? user s = some v → v.node? ≠ some n) ∧
        ∀ p t u, (w.run edits).graph.record? p t = some u →
          u.user ≠ n ∧ u.value.node? ≠ some n)) ∧
    (∀ e : Edit, e.plantsUse = false → ∀ n, (w.apply e).1.stage n = .stored →
      w.stage n = .free ∨ w.stage n = .stored) ∧
    (∀ e n, w.stage n = .free → (w.apply e).1.stage n = .gone →
      (∃ fault, (w.apply e).2 = .error fault) ∧
        ((∃ f before?, e = .attach n f before?) ∨ ∃ v, e = .setDraftPredicate n v)) ∧
    (∀ f n before? fault, (w.apply (.attach n f before?)).2 = .error fault →
      (w.apply (.attach n f before?)).1.stage n = .gone) ∧
    (∀ f n, (w.apply (.eraseNode f n)).2 = .ok .done →
      (w.apply (.eraseNode f n)).1.stage n = .gone) ∧
    ∀ func ∈ w.graph.funcs, ∀ n ∈ func.nodes, (w.apply (.eraseFunc func.id)).1.stage n = .gone := by
  have co := reach.consistent
  have own := co.coherent.owned
  refine ⟨fun n node stored => ⟨own.node_id stored, ?_⟩, fun func hf n hn => ?_, own.nodeCount_eq,
    fun edits honest n => ⟨co.rank_le_run honest n, fun gone => ?_⟩,
    fun e honest n => (co.apply honest).free_or_stored co, fun e n => co.free_lost,
    fun f n before? fault => co.stage_attach_failed, fun f n => co.stage_eraseNode,
    fun func hf n hn => co.stage_eraseFunc ⟨func, hf, rfl, hn⟩⟩
  · obtain ⟨f, parent, func, hf, rfl, hn⟩ := own.owner stored
    refine ⟨func, hf, parent, List.count_eq_one_of_mem func.roster.nodup hn, fun other ho hn' => ?_⟩
    exact Graph.func_unique own.func_ids ho hf
      (own.owner_unique ⟨other, ho, rfl, hn'⟩ ⟨func, hf, rfl, hn⟩)
  · exact own.listed ⟨func, hf, rfl, hn⟩
  · have rank := co.rank_le_run honest n
    rw [gone] at rank
    obtain ⟨-, unheld, absent⟩ := of_stage_eq_gone (Stage.eq_gone rank)
    refine ⟨?_, (co.run honest).not_named absent⟩
    rw [Workspace.node?, unheld, absent]

theorem ownership_and_lifecycle_diamond :
    (empty.run diamond).Reachable ∧ (empty.run diamond).stage ⟨3⟩ = .stored ∧
      ((empty.run diamond).apply (.eraseNode ⟨0⟩ ⟨3⟩)).1.stage ⟨3⟩ = .gone := by
  obtain ⟨-, -, -, -, -, -, -, erased, -⟩ := Reachable.ownership_and_lifecycle reachable_diamond
  exact ⟨reachable_diamond, by decide, erased ⟨0⟩ ⟨3⟩ (by decide)⟩

end Workspace

end Dataflow
