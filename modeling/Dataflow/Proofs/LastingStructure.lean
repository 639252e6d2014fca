import Dataflow.Proofs.NeutralEdits
import Dataflow.Proofs.StructuralEquality
import Dataflow.Proofs.Teardown

/-!
# Structure that lasts

The structural key of a node changes only when an edit writes its types or slots, or redirects a slot
of it by way of the value that it reads. All other edits leave the node alone (`Edit.LeavesAlone`): it
can be attached, moved and renamed, and gain and lose users, and keeps its key over any history of such
edits (`Consistent.keyIs_run`). Hence so does equality with any other node.
-/

namespace Dataflow

namespace Edit

/-- The node whose types or slots are written, if there is one. -/
def written? : Edit → Option NodeId
  | .pushInput n _ | .setDraftInput n .. | .setDraftPredicate n _ | .addResult n _
  | .setDraftType n .. | .setInput n .. | .setPredicate n _ | .setType n .. | .clearOperands n => some n
  | _ => none

/-- The slots that read `v` are redirected. -/
def Redirects (v : Value) : Edit → Prop
  | .replaceUses source _ => source = v
  | .replaceNode n _ | .clearUses n => v.node? = some n
  | _ => False

/-- Whether nodes are erased. -/
def erases : Edit → Bool
  | .eraseNode .. | .eraseFunc _ => true
  | _ => false

/-- Neither is the node `x` written nor are its operands redirected, which are those of `a`. -/
structure LeavesAlone (e : Edit) (x : NodeId) (a : Node) : Prop where
  honest : e.plantsUse = false
  unwritten : e.written? ≠ some x
  operands : ∀ o ∈ a.operands, ¬ e.Redirects o.2

/-- Whether nodes are only attached, moved or renamed. -/
def rearranges : Edit → Bool
  | .attach .. | .moveRange .. | .setName .. | .setDraftName .. => true
  | _ => false

theorem leavesAlone_of_rearranges {e : Edit} (neutral : e.rearranges = true) (x : NodeId) (a : Node) :
    e.LeavesAlone x a ∧ e.erases = false := by
  cases e with
  | attach | moveRange | setName | setDraftName =>
    exact ⟨⟨rfl, nofun, fun _ _ => not_false⟩, rfl⟩
  | _ => cases neutral

end Edit

/-! ## Keys and operands -/

namespace Node

/-- The key of a node can be seen. -/
def View.key (v : View) : Key := ⟨v.op, v.results, v.predicate, v.inputs⟩

variable {a b : Node}

theorem mem_operands_iff_key {s : Slot} {v : Value} :
    (s, v) ∈ a.operands ↔ v ≠ .null ∧ a.key.read? s = some v := by
  rw [mem_operands, read?_key, Option.map_eq_some_iff]

theorem operands_subset_of_key (same : b.key = a.key) : b.operands ⊆ a.operands := by
  rintro ⟨s, v⟩ ho
  rw [mem_operands_iff_key, same] at ho
  exact mem_operands_iff_key.2 ho

end Node

namespace Graph

variable {g h : Graph} {x : NodeId} {a b : Node}

/-- If the node `x` is stored, it has the key `k`. -/
def KeyIs (g : Graph) (x : NodeId) (k : Node.Key) : Prop := ∀ b, g.node? x = some b → b.key = k

theorem keyIs_of_node? (stored : g.node? x = some a) : g.KeyIs x a.key := fun b stored' => by
  rw [Option.some.inj (stored.symm.trans stored')]

theorem SameKeys.keyIs (same : g.SameKeys h) (stored : g.node? x = some a) : h.KeyIs x a.key :=
  fun _ after => same.key_eq stored after

theorem mem_operands_of_reads (stored : g.node? x = some a) {s : Slot} {v : Value}
    (read : g.reads? x s = some v) (connected : v ≠ .null) : (s, v) ∈ a.operands := by
  rw [reads?, operand?, stored, Option.bind_some, Option.map_eq_some_iff] at read
  exact Node.mem_operands.2 ⟨connected, read⟩

theorem Rewired.keyIs_of_reads (r : g.Rewired h) (stored : g.node? x = some a)
    (reads : ∀ s, h.reads? x s = g.reads? x s) : h.KeyIs x a.key :=
  fun _ after => r.key_eq stored after reads

theorem keyIs_connect (stored : g.node? x = some a) {n : NodeId} (ne : n ≠ x) (s : Slot) (v : Value) :
    (g.connect n s v).KeyIs x a.key :=
  (rewired_connect g n s v).keyIs_of_reads stored fun s' => by
    rw [reads?_connect, if_neg fun same => ne same.1]

theorem keyIs_clearSlots (stored : g.node? x = some a) {n : NodeId} (ne : n ≠ x) (slots : List Slot) :
    (g.clearSlots n slots).KeyIs x a.key :=
  (rewired_clearSlots g n slots).keyIs_of_reads stored fun s => by
    rw [reads?_clearSlots, if_neg fun same => ne same.1]

/-- Rewiring that does not touch the operands of a node keeps its key. -/
theorem Rewired.keyIs (r : g.Rewired h) (stored : g.node? x = some a) {f : Value → Value}
    (reads : ∀ s, h.reads? x s = (g.reads? x s).map f) (null : f .null = .null)
    (operands : ∀ o ∈ a.operands, f o.2 = o.2) : h.KeyIs x a.key := by
  refine r.keyIs_of_reads stored fun s => ?_
  rw [reads]
  cases read : g.reads? x s with
  | none => rfl
  | some v =>
    rw [Option.map_some, Option.some.injEq]
    by_cases connected : v = .null
    · rw [connected, null]
    · exact operands _ (mem_operands_of_reads stored read connected)

/-! ## Redirecting -/

theorem Symmetric.keyIs_replaceUses (sym : g.Symmetric) (stored : g.node? x = some a)
    {source : Value} (apart : ∀ o ∈ a.operands, source ≠ o.2) (target : Value) :
    (g.replaceUses source target).1.KeyIs x a.key := by
  have r := (patched_replaceUses g source target).rewired
  cases source with
  | null => exact keyIs_of_node? stored
  | result p i =>
    by_cases done : g.contains p ∧ g.Readable target
    · refine r.keyIs stored (fun s => sym.reads?_replaceUses rfl done.1 done.2 x s) (if_neg ?_)
        fun o ho => if_neg (apart o ho).symm
      exact Value.noConfusion
    · refine guarded_of_forall (P := fun h => h.KeyIs x a.key) (keyIs_of_node? stored) fun _ passed => ?_
      obtain ⟨node, found, passed⟩ := bind_eq_ok_iff.1 passed
      obtain ⟨_, checked, -⟩ := bind_eq_ok_iff.1 passed
      exact absurd ⟨contains_of_node? (nodeOrRefusal_eq_ok_iff.1 found), readable_of_check checked⟩ done

theorem Symmetric.keyIs_clearUses (sym : g.Symmetric) (stored : g.node? x = some a) {n : NodeId}
    (apart : ∀ o ∈ a.operands, o.2.node? ≠ some n) : (g.clearUses n).1.KeyIs x a.key := by
  have r := (patched_clearUses g n).rewired
  by_cases found : g.contains n
  · exact r.keyIs stored (fun s => sym.reads?_clearUses found x s) (if_neg (by simp [Value.node?]))
      fun o ho => if_neg (apart o ho)
  · refine guarded_of_forall (P := fun h => h.KeyIs x a.key) (keyIs_of_node? stored)
      fun node passed => ?_
    exact absurd (contains_of_node? (nodeOrRefusal_eq_ok_iff.1 passed)) found

theorem Symmetric.keyIs_replaceNode (sym : g.Symmetric) (stored : g.node? x = some a) {old : NodeId}
    (apart : ∀ o ∈ a.operands, o.2.node? ≠ some old) (new : NodeId) :
    (g.replaceNode old new).1.KeyIs x a.key := by
  rcases sym.replaceNode_cases old new with same | ⟨-, handed, listed, redirected⟩
  · rw [same]
    exact keyIs_of_node? stored
  · refine redirected.rewired.keyIs_of_reads stored fun s => ?_
    rw [reads?, reads?, redirected.operand]
    intro handedOver
    obtain ⟨u, hu, here⟩ := List.mem_map.1 handedOver
    obtain ⟨rfl, rfl⟩ := Prod.mk.inj here
    obtain ⟨read, hp⟩ := sym.mem_allUses.1 (listed hu)
    exact apart _ (mem_operands_of_reads stored read (Value.ne_null_of_node? hp)) hp

/-! ## Erasing -/

/-- Leaving out nodes keeps the key of a node that reads only what is left. -/
theorem Symmetric.keyIs_of_view (sym : g.Symmetric) (stored : g.node? x = some a) {ns : Finset NodeId}
    (left : h.view.node? = (g.view.without ns).node?)
    (kept : h.contains x → ∀ o ∈ a.operands, g.Readable o.2 → h.Readable o.2) : h.KeyIs x a.key := by
  intro b after
  have node (m : NodeId) : (h.node? m).map Node.view =
      if m ∈ ns then none else ((g.node? m).map Node.view).map (·.without ns) := congrFun left m
  have same := node x
  rw [after, stored, Option.map_some, Option.map_some, Option.map_some] at same
  split_ifs at same
  have unchanged {s : Slot} {v : Value} (read : g.reads? x s = some v) : v.without ns = v := by
    cases v with
    | null => rfl
    | result p i =>
      refine if_neg fun gone => ?_
      have operand := mem_operands_of_reads stored read Value.noConfusion
      obtain ⟨node', stored'⟩ := contains_iff.1
        (kept (contains_of_node? after) _ operand (sym.readable read) p rfl)
      have absent := node p
      rw [if_pos gone, stored'] at absent
      cases absent
  have predicate := unchanged (reads?_predicate stored)
  have inputs : a.inputValues.map (·.without ns) = a.inputValues := by
    refine (List.map_congr_left fun v hv => ?_).trans (List.map_id _)
    obtain ⟨i, hi⟩ := List.getElem?_of_mem hv
    exact unchanged (s := .input i) (by rw [← getElem?_inputValues stored, hi])
  calc b.key = b.view.key := rfl
    _ = (a.view.without ns).key := by rw [Option.some.inj same]
    _ = ⟨a.op, a.results, a.predicate.value.without ns, a.inputValues.map (·.without ns)⟩ := rfl
    _ = a.key := by rw [predicate, inputs, Node.key]

theorem Coherent.keyIs_eraseNode (co : g.Coherent) (stored : g.node? x = some a) {f : FuncId}
    {n : NodeId} (kept : (g.eraseNode f n).1.contains x → ∀ o ∈ a.operands, g.Readable o.2 →
      (g.eraseNode f n).1.Readable o.2) : (g.eraseNode f n).1.KeyIs x a.key := by
  by_cases listed : g.Lists f n
  · obtain ⟨h, eq, -, left⟩ := co.view_eraseNode listed
    rw [eq] at kept ⊢
    exact co.symmetric.keyIs_of_view stored (congrArg View.node? left) kept
  · obtain ⟨e, eq⟩ := co.owned.eraseNode_of_not_lists listed
    rw [eq]
    exact keyIs_of_node? stored

theorem Coherent.keyIs_eraseFunc (co : g.Coherent) (stored : g.node? x = some a) {f : FuncId}
    (kept : (g.eraseFunc f).1.contains x → ∀ o ∈ a.operands, g.Readable o.2 →
      (g.eraseFunc f).1.Readable o.2) : (g.eraseFunc f).1.KeyIs x a.key := by
  by_cases exists_ : g.HasFunc f
  · obtain ⟨func, hf, rfl⟩ := List.mem_map.1 exists_
    obtain ⟨h, eq, left⟩ := co.view_eraseFunc hf
    rw [eq] at kept ⊢
    have left : h.view.node? = (g.view.without func.nodes.toFinset).node? := by
      rw [left]
      rfl
    exact co.symmetric.keyIs_of_view stored left kept
  · have missing := funcOrRefusal_eq_error_iff.2 ⟨exists_, rfl⟩
    rw [Graph.eraseFunc, guarded_of_error missing]
    exact keyIs_of_node? stored

end Graph

namespace Workspace

/-- All edits leave the node `x` alone. If it is stored in the end, and nodes are erased, then those that
it reads are not among them. -/
structure LeavesAlone (w : Workspace) (edits : List Edit) (x : NodeId) (a : Node) : Prop where
  alone : ∀ e ∈ edits, e.LeavesAlone x a
  kept : (∃ e ∈ edits, e.erases = true) → (w.run edits).graph.contains x →
    ∀ o ∈ a.operands, (w.run edits).graph.Readable o.2

variable {w : Workspace} {x : NodeId} {a : Node} {edits : List Edit}

/-- If the node `x` is found, it has the key `k`. -/
def KeyIs (w : Workspace) (x : NodeId) (k : Node.Key) : Prop := ∀ b, w.node? x = some b → b.key = k

theorem keyIs_of_node? (found : w.node? x = some a) : w.KeyIs x a.key := fun b found' => by
  rw [Option.some.inj (found.symm.trans found')]

theorem Consistent.number_lt (co : w.Consistent) (found : w.node? x = some a) :
    x.number < w.nextNode := by
  cases held : w.drafts[x]? with
  | some d => exact (co.draft held).2.2.1
  | none =>
    rw [node?_of_unheld held] at found
    exact co.stored (Graph.contains_of_node? found)

/-! ## Single edits -/

/-- A new node is not the one that has been found. -/
theorem Consistent.keyIs_issue (co : w.Consistent) (found : w.node? x = some a) {d : Node}
    (id : d.id = ⟨w.nextNode⟩) : (w.takeNode.2.keep d).KeyIs x a.key := by
  refine keyIs_of_node? ((node?_keep _ d x).trans ?_)
  have ne : d.id ≠ x := by
    rintro rfl
    have issued := co.number_lt found
    rw [id] at issued
    exact Nat.lt_irrefl _ issued
  rw [if_neg ne]
  exact found

theorem Consistent.keyIs_make (co : w.Consistent) (found : w.node? x = some a) (spec : Node.Spec) :
    (w.make spec).1.KeyIs x a.key :=
  make_of_forall (P := fun w' => w'.KeyIs x a.key) (keyIs_of_node? found) fun _ made =>
    co.keyIs_issue found (Node.Spec.unlinked_build made).1

theorem Consistent.keyIs_clone (co : w.Consistent) (found : w.node? x = some a) (n : NodeId) :
    (w.clone n).1.KeyIs x a.key :=
  clone_of_forall (P := fun w' => w'.KeyIs x a.key) (keyIs_of_node? found) fun _ _ =>
    co.keyIs_issue found rfl

/-- A free node that is given up is not found any more. -/
theorem Consistent.keyIs_drop (co : w.Consistent) (found : w.node? x = some a) (n : NodeId) :
    (w.drop n).KeyIs x a.key := by
  by_cases same : n = x
  · subst same
    intro b found'
    rw [node?_of_unheld ((drafts_drop w n n).trans (if_pos rfl))] at found'
    cases held : w.drafts[n]? with
    | some d => cases (co.draft held).2.2.2.symm.trans found'
    | none =>
      rw [node?_of_unheld held] at found
      exact Graph.keyIs_of_node? found b found'
  · exact keyIs_of_node? ((node?_drop_of_ne w same).trans found)

/-- A change of a free node keeps the key of any other, and its own if it does not touch it. -/
theorem Consistent.keyIs_changeDraft (co : w.Consistent) (found : w.node? x = some a) {n : NodeId}
    {change : Node → Except Violation Node} (retains : Node.Retains change)
    (keeps : n ≠ x ∨ ∀ d d', change d = .ok d' → d'.key = d.key) :
    (w.changeDraft n change).1.KeyIs x a.key := by
  refine changeDraft_of_forall (P := fun w' => w'.KeyIs x a.key) (keyIs_of_node? found)
    fun d d' held done b found' => ?_
  have id : d'.id = n := (retains d d' done).1.trans (co.draft held).1
  rw [node?_keep] at found'
  split_ifs at found' with same
  · obtain rfl := Option.some.inj found'
    obtain rfl : n = x := id.symm.trans same
    obtain rfl := Option.some.inj (found.symm.trans (node?_of_held held))
    exact keeps.elim (fun ne => absurd rfl ne) fun keeps => keeps a d' done
  · exact keyIs_of_node? found b found'

theorem Consistent.keyIs_guardDraft (co : w.Consistent) (found : w.node? x = some a) {n : NodeId}
    (ne : n ≠ x) (v : Value) : (w.guardDraft n v).1.KeyIs x a.key := by
  refine guardDraft_of_forall (P := fun w' => w'.KeyIs x a.key) (keyIs_of_node? found)
    (co.keyIs_drop found n) fun d d' held done => ?_
  have id : d'.id = n := (Node.retains_setPredicate v d d' done).1.trans (co.draft held).1
  exact keyIs_of_node? ((node?_keep w d' x).trans (by rw [id, if_neg ne, found]))

/-- An edit of the graph leaves free nodes as they are. -/
theorem keyIs_withGraph (found : w.node? x = some a) {h : Graph}
    (keeps : w.graph.node? x = some a → h.KeyIs x a.key) : { w with graph := h }.KeyIs x a.key := by
  intro b found'
  cases held : w.drafts[x]? with
  | some d => rw [Option.some.inj (found'.symm.trans (node?_of_held held)),
      Option.some.inj (found.symm.trans (node?_of_held held))]
  | none =>
    have unheld : ({ w with graph := h } : Workspace).drafts[x]? = none := held
    rw [node?_of_unheld held] at found
    rw [node?_of_unheld unheld] at found'
    exact keeps found b found'

/-- A free node keeps its key when it is attached, and so do all others. -/
theorem Consistent.keyIs_attach (co : w.Consistent) (found : w.node? x = some a) (n : NodeId)
    (f : FuncId) (before? : Option NodeId) : (w.attach n f before?).1.KeyIs x a.key := by
  refine attach_of_forall (P := fun w' => w'.KeyIs x a.key) (keyIs_of_node? found)
    (co.keyIs_drop found n) fun d h held done => ?_
  obtain ⟨rfl, free, -, absent⟩ := co.draft held
  obtain ⟨rfl, exists_, anchor, readable⟩ := co.coherent.owned.eq_of_attach done
  by_cases same : d.id = x
  · subst same
    intro b found'
    obtain rfl := Option.some.inj (found.symm.trans (node?_of_held held))
    have unheld : ({ w.drop a.id with graph := w.graph.store f a before? } : Workspace).drafts[a.id]? =
        none := (drafts_drop w a.id a.id).trans (if_pos rfl)
    rw [node?_of_unheld unheld] at found'
    have stored := (co.coherent.attached free absent exists_ anchor readable).stored
    rw [found', Option.map_some, Option.some.injEq] at stored
    exact congrArg Node.View.key stored
  · refine keyIs_withGraph ((node?_drop_of_ne w same).trans found) fun stored b after => ?_
    rw [Graph.node?_store_of_ne absent readable f before? (Ne.symm same)] at after
    obtain ⟨old, stored', rfl⟩ := Option.map_eq_some_iff.1 after
    rw [Option.some.inj (stored'.symm.trans stored)]
    rfl

/-- An edit that leaves a node alone keeps its key, and so does erasing other nodes unless the node
reads them. -/
theorem Consistent.keyIs_apply (co : w.Consistent) (found : w.node? x = some a) {e : Edit}
    (alone : e.LeavesAlone x a)
    (kept : e.erases = true → (w.apply e).1.graph.contains x → ∀ o ∈ a.operands,
      w.graph.Readable o.2 → (w.apply e).1.graph.Readable o.2) :
    (w.apply e).1.KeyIs x a.key := by
  have sym := co.coherent.symmetric
  have other {n : NodeId} (written : e.written? = some n) : n ≠ x := fun same =>
    alone.unwritten (same ▸ written)
  have map {α : Type} {result : Except Fault α} {reply : α → Graph × Reply}
      (done : ∀ r, result = .ok r → w.graph.node? x = some a → (reply r).1.KeyIs x a.key) :
      (w.edit (result.map reply)).1.KeyIs x a.key :=
    editMap_of_forall (P := fun w' => w'.KeyIs x a.key) (keyIs_of_node? found)
      fun r ok => keyIs_withGraph found (done r ok)
  have mapError {α : Type} {result : Except Refusal α} {reply : α → Graph × Reply}
      (done : ∀ r, result = .ok r → w.graph.node? x = some a → (reply r).1.KeyIs x a.key) :
      (w.edit ((result.map reply).mapError .refused)).1.KeyIs x a.key :=
    editMapError_of_forall (P := fun w' => w'.KeyIs x a.key) (keyIs_of_node? found)
      fun r ok => keyIs_withGraph found (done r ok)
  cases e with
  | reserveNode | reserveFunc | addFunc => exact keyIs_of_node? found
  | make spec => exact co.keyIs_make found spec
  | clone n => exact co.keyIs_clone found n
  | pushInput n v => exact co.keyIs_changeDraft found (Node.retains_pushInput v) (.inl (other rfl))
  | setDraftInput n i v =>
    exact co.keyIs_changeDraft found (Node.retains_setInput i v) (.inl (other rfl))
  | setDraftPredicate n v => exact co.keyIs_guardDraft found (other rfl) v
  | addResult n t? => exact co.keyIs_changeDraft found (Node.retains_addResult t?) (.inl (other rfl))
  | setDraftType n i t =>
    exact co.keyIs_changeDraft found (Node.retains_setType i t) (.inl (other rfl))
  | setDraftName n name =>
    refine co.keyIs_changeDraft found (Node.retains_rename name) (.inr fun d d' done => ?_)
    cases done
    rfl
  | forceParent n parent? =>
    refine co.keyIs_changeDraft found (Node.retains_reparent parent?) (.inr fun d d' done => ?_)
    cases done
    rfl
  | forceUse => exact absurd alone.honest Bool.noConfusion
  | attach n f before? => exact co.keyIs_attach found n f before?
  | setInput n i v =>
    refine map fun h ok stored => ?_
    obtain ⟨-, rfl⟩ := Graph.eq_of_setInput ok
    exact Graph.keyIs_connect stored (other rfl) (.input i) v
  | setPredicate n v =>
    refine mapError fun h ok stored => ?_
    obtain ⟨-, rfl⟩ := Graph.eq_of_setPredicate ok
    exact Graph.keyIs_connect stored (other rfl) .predicate v
  | setType n i t =>
    refine map fun h ok stored => ?_
    obtain ⟨f, rfl, -⟩ := Graph.exists_of_setType ok
    refine Graph.keyIs_of_node? ((Graph.node?_modifyNode w.graph n x f).trans ?_)
    rw [if_neg (other rfl), stored]
  | setName n name => exact mapError fun h ok stored => (Graph.sameKeys_setName ok).keyIs stored
  | clearOperands n =>
    refine mapError fun h ok stored => ?_
    obtain ⟨slots, rfl⟩ := Graph.exists_of_clearOperands ok
    exact Graph.keyIs_clearSlots stored (other rfl) slots
  | replaceUses source target =>
    exact keyIs_withGraph found fun stored => sym.keyIs_replaceUses stored alone.operands target
  | replaceNode old new =>
    exact keyIs_withGraph found fun stored => sym.keyIs_replaceNode stored alone.operands new
  | clearUses n =>
    exact keyIs_withGraph found fun stored => sym.keyIs_clearUses stored alone.operands
  | eraseNode f n =>
    exact keyIs_withGraph found fun stored => co.coherent.keyIs_eraseNode stored (kept rfl)
  | eraseFunc f =>
    exact keyIs_withGraph found fun stored => co.coherent.keyIs_eraseFunc stored (kept rfl)
  | moveRange source first last target before? =>
    refine mapError fun r ok stored => ?_
    obtain ⟨h, moved⟩ := r
    exact (Graph.sameKeys_moveRange ok).keyIs stored

/-! ## Histories -/

/-- A node that is found in the end and was not new has been there. -/
theorem Consistent.exists_of_run (co : w.Consistent) (honest : ∀ e ∈ edits, e.plantsUse = false)
    (issued : x.number < w.nextNode) {b : Node} (found : (w.run edits).node? x = some b) :
    ∃ a, w.node? x = some a := by
  cases before : w.node? x with
  | some a => exact ⟨a, rfl⟩
  | none =>
    have missing : w.drafts[x]? = none ∧ w.graph.node? x = none := by
      cases held : w.drafts[x]? with
      | some d => cases before.symm.trans (node?_of_held held)
      | none => exact ⟨rfl, (node?_of_unheld held).symm.trans before⟩
    have gone := co.rank_le_run honest x
    rw [stage_of_absent issued missing.1 missing.2] at gone
    obtain ⟨-, unheld, absent⟩ := of_stage_eq_gone (Stage.eq_gone gone)
    cases found.symm.trans ((node?_of_unheld unheld).trans absent)

/-- A stored node that is found in the end is stored in the end. -/
theorem Consistent.contains_of_run (co : w.Consistent) (honest : ∀ e ∈ edits, e.plantsUse = false)
    (stored : w.graph.contains x) {b : Node} (found : (w.run edits).node? x = some b) :
    (w.run edits).graph.contains x := by
  obtain ⟨node, stored⟩ := Graph.contains_iff.1 stored
  have later := co.rank_le_run honest x
  rw [stage_of_stored (co.stored (Graph.contains_of_node? stored)) (co.unheld stored) stored] at later
  cases held : (w.run edits).drafts[x]? with
  | some d =>
    rw [stage_of_draft ((co.run honest).draft held).2.2.1 held] at later
    exact absurd later (by decide)
  | none =>
    rw [node?_of_unheld held] at found
    exact Graph.contains_of_node? found

/-- A history that leaves a node alone keeps its key. -/
theorem Consistent.keyIs_run (co : w.Consistent) (found : w.node? x = some a)
    (left : w.LeavesAlone edits x a) : (w.run edits).KeyIs x a.key := by
  obtain ⟨alone, kept⟩ := left
  induction edits generalizing w a with
  | nil => exact keyIs_of_node? found
  | cons e edits ih =>
    have honest : ∀ e ∈ edits, e.plantsUse = false := fun e he =>
      (alone e (List.mem_cons_of_mem _ he)).honest
    have first := alone e List.mem_cons_self
    have next := co.apply first.honest
    intro b found'
    obtain ⟨m, between⟩ := next.consistent.exists_of_run honest
      (Nat.lt_of_lt_of_le (co.number_lt found) next.nextNode_le) found'
    have key : m.key = a.key := by
      refine co.keyIs_apply found first (fun erases stored o ho readable p hp => ?_) m between
      -- what is stored before and after the history has not been erased by its first edit
      have last := next.consistent.contains_of_run honest stored found'
      have after := kept ⟨e, List.mem_cons_self, erases⟩ last o ho p hp
      obtain ⟨node, before⟩ := Graph.contains_iff.1 (readable p hp)
      obtain ⟨node', after⟩ := Graph.contains_iff.1 after
      obtain ⟨_, there⟩ := co.stored_of_run [e] edits
        (List.forall_mem_cons.2 ⟨first.honest, honest⟩) before after
      exact Graph.contains_of_node? there
    have same := Node.operands_subset_of_key key
    rw [← key]
    refine ih next.consistent between (fun e' he' => ?_)
      (fun ⟨e', he', erases⟩ stored o ho => ?_) b found'
    · have rest := alone e' (List.mem_cons_of_mem _ he')
      exact ⟨rest.honest, rest.unwritten, fun o ho => rest.operands o (same ho)⟩
    · exact kept ⟨e', List.mem_cons_of_mem _ he', erases⟩ stored o (same ho)

/-! ## Equality over histories -/

/-- A history that leaves two nodes alone keeps them equal, or different. -/
theorem Consistent.isEqual_run (co : w.Consistent) {y : NodeId} {b a' b' : Node}
    (found : w.node? x = some a) (found' : w.node? y = some b)
    (left : w.LeavesAlone edits x a) (left' : w.LeavesAlone edits y b)
    (after : (w.run edits).node? x = some a') (after' : (w.run edits).node? y = some b') :
    a'.isEqual b' = a.isEqual b :=
  Node.isEqual_congr (co.keyIs_run found left a' after) (co.keyIs_run found' left' b' after')

theorem leavesAlone_of_rearranges (neutral : ∀ e ∈ edits, e.rearranges = true) (w : Workspace)
    (x : NodeId) (a : Node) : w.LeavesAlone edits x a := by
  refine ⟨fun e he => (Edit.leavesAlone_of_rearranges (neutral e he) x a).1, fun ⟨e, he, erases⟩ => ?_⟩
  rw [(Edit.leavesAlone_of_rearranges (neutral e he) x a).2] at erases
  cases erases

/-- After any history, the row of a node holds its types and is kept in step by the edits of rows. Two
nodes are equal exactly when their operations, their result types, their predicates and their inputs are,
exactly when their keys are, and exactly when the same is fed to a hasher, so that equal nodes have the
same hash. This is an equivalence, and depends on nothing but the key. Without records written by hand it
lasts over every further history that leaves both nodes alone, as attaching, moving and renaming do. The
duplicates of a function are the pairs of equal nodes of its list with no equal node in between, in the
order of the later ones. -/
theorem structure_decides_equality (edits : List Edit) :
    let w := empty.run edits
    (∀ x a, w.node? x = some a → a.typeRow.toList = a.results ∧
      (∀ t?, (a.addResult t?).toOption.map Node.typeRow = a.typeRow.add? t?) ∧
      ∀ i t, (a.setType i t).toOption.map Node.typeRow = a.typeRow.setType? i t) ∧
    (∀ x y a b, w.node? x = some a → w.node? y = some b →
      (a.isEqual b = true ↔ a.op = b.op ∧
        (a.results.length = b.results.length ∧
          ∀ i, i < a.results.length → a.results[i]? = b.results[i]?) ∧
        a.predicate.value = b.predicate.value ∧ a.inputValues = b.inputValues) ∧
      (a.key = b.key ↔ a.isEqual b = true) ∧ (a.feed = b.feed ↔ a.isEqual b = true) ∧
      (a.isEqual b = true → ∀ (σ : Type) (h : Hasher σ), a.structuralHash h = b.structuralHash h)) ∧
    (Equivalence fun a b : Node => a.isEqual b = true) ∧
    (∀ a b a' b' : Node, a'.key = a.key → b'.key = b.key → a'.isEqual b' = a.isEqual b) ∧
    ((∀ e ∈ edits, e.plantsUse = false) → ∀ more x y a b a' b',
      w.node? x = some a → w.node? y = some b →
      (w.run more).node? x = some a' → (w.run more).node? y = some b' →
      (w.LeavesAlone more x a ∧ w.LeavesAlone more y b) ∨ (∀ e ∈ more, e.rearranges = true) →
      a'.isEqual b' = a.isEqual b) ∧
    ((∀ e ∈ edits, e.plantsUse = false) → ∀ func ∈ w.graph.funcs, ∃ nodes,
      w.graph.nodesOf func.id = .ok nodes ∧ nodes.map (·.id) = func.nodes) ∧
    ∀ f nodes, w.graph.nodesOf f = .ok nodes → ∃ pairs, w.graph.duplicates f = .ok pairs ∧
      (pairs.map (·.2)).Sublist (nodes.map (·.id)) ∧
      ∀ p, p ∈ pairs ↔ ∃ front a mid b back, nodes = front ++ a :: (mid ++ b :: back) ∧
        p = (a.id, b.id) ∧ a.isEqual b = true ∧ ∀ m ∈ mid, m.isEqual b = false := by
  intro w
  have limited {x : NodeId} {a : Node} (found : w.node? x = some a) : a.Limited :=
    (limited_run edits).node? found
  refine ⟨fun x a found => ⟨(limited found).toList_typeRow, (limited found).typeRow_addResult,
    (limited found).typeRow_setType⟩, fun x y a b found found' =>
    ⟨(limited found).isEqual_iff_types (limited found'),
      ((limited found).isEqual_iff_key (limited found')).symm, Node.feed_eq_iff,
      fun same σ h => Node.structuralHash_eq h same⟩,
    Node.equivalence_isEqual, fun a b a' b' => Node.isEqual_congr,
    fun honest more x y a b a' b' found found' after after' left => ?_,
    fun honest func hf => (consistent_empty.run honest).coherent.owned.exists_nodesOf hf,
    fun f nodes listed => ?_⟩
  · have co := consistent_empty.run honest
    rcases left with ⟨left, left'⟩ | neutral
    · exact co.isEqual_run found found' left left' after after'
    · exact co.isEqual_run found found' (leavesAlone_of_rearranges neutral w x a)
        (leavesAlone_of_rearranges neutral w y b) after after'
  · have stored : ∀ n ∈ nodes, n.Limited := fun n hn => by
      obtain ⟨func, -, rfl⟩ := map_eq_ok_iff.1 listed
      obtain ⟨m, -, stored⟩ := List.mem_filterMap.1 hn
      exact ((limited_run edits).graph m n stored).2
    exact ⟨duplicatesIn nodes, by rw [Graph.duplicates, listed]; rfl, duplicatesIn_sublist nodes,
      fun p => mem_duplicatesIn_iff stored⟩

/-- Two nodes that compute the same are duplicates, and stay equal while one is renamed and takes the
users of the other, and these are erased. -/
theorem structure_decides_equality_diamond :
    let w := empty.run diamond
    let more := [.setName ⟨2⟩ "c", .replaceNode ⟨1⟩ ⟨2⟩, .eraseNode ⟨0⟩ ⟨3⟩]
    ∃ a b a' b', w.node? ⟨1⟩ = some a ∧ w.node? ⟨2⟩ = some b ∧
      (w.run more).node? ⟨1⟩ = some a' ∧ (w.run more).node? ⟨2⟩ = some b' ∧
      a.isEqual b = true ∧ a.structuralHash .mixing = b.structuralHash .mixing ∧
      a'.isEqual b' = true ∧ ∃ pairs, w.graph.duplicates ⟨0⟩ = .ok pairs ∧ (⟨1⟩, ⟨2⟩) ∈ pairs := by
  intro w more
  obtain ⟨-, meaning, -, -, lasts, -, duplicates⟩ := structure_decides_equality diamond
  obtain ⟨first, a, b, last, listed, found, found', ids, operands, operands', key⟩ : ∃ first a b last,
      w.graph.nodesOf ⟨0⟩ = .ok [first, a, b, last] ∧ w.node? ⟨1⟩ = some a ∧ w.node? ⟨2⟩ = some b ∧
      (⟨1⟩, ⟨2⟩) = (a.id, b.id) ∧ a.operands = [(.input 0, .result ⟨0⟩ 0)] ∧
      b.operands = [(.input 0, .result ⟨0⟩ 0)] ∧ a.key = b.key :=
    ⟨_, _, _, _, rfl, rfl, rfl, rfl, rfl, rfl, rfl⟩
  obtain ⟨a', after⟩ : ∃ a', (w.run more).node? ⟨1⟩ = some a' := ⟨_, rfl⟩
  obtain ⟨b', after'⟩ : ∃ b', (w.run more).node? ⟨2⟩ = some b' := ⟨_, rfl⟩
  obtain ⟨-, keys, -, hash⟩ := meaning _ _ _ _ found found'
  have same := keys.1 key
  have stays : (w.run more).graph.contains ⟨0⟩ := by decide +kernel
  have left {x : NodeId} {a : Node} (operands : a.operands = [(.input 0, .result ⟨0⟩ 0)]) :
      w.LeavesAlone more x a := by
    refine ⟨?_, fun _ _ o ho => ?_⟩
    · simp only [more, List.forall_mem_cons]
      refine ⟨⟨rfl, nofun, ?_⟩, ⟨rfl, nofun, ?_⟩, ⟨rfl, nofun, ?_⟩, List.forall_mem_nil _⟩ <;>
        simp [operands, Edit.Redirects, Value.node?]
    · rw [operands, List.mem_singleton] at ho
      rw [ho]
      exact Graph.readable_result stays 0
  have stay := lasts (by decide) more _ _ _ _ _ _ found found' after after'
    (.inl ⟨left operands, left operands'⟩)
  obtain ⟨pairs, done, -, mem⟩ := duplicates _ _ listed
  exact ⟨a, b, a', b', found, found', after, after', same, hash same _ _, stay.trans same, pairs, done,
    (mem _).2 ⟨[first], a, [], b, [last], rfl, ids, same, List.forall_mem_nil _⟩⟩

end Workspace

end Dataflow
