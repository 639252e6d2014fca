import Dataflow.Proofs.CycleDiagnosis
import Dataflow.Proofs.TokenLife

/-!
# Acyclic graphs

When a node is attached, everything that it reads is stored and nothing reads it yet. So its edges close
no cycle, in whatever order nodes were made, filled and attached (`Symmetric.acyclic_store`): the order
in which they were attached is one in which every node comes after those that it reads. As long as no
slot of a stored node is let read another value, all other edits only take edges away, and the graph
stays acyclic (`acyclic_of_attaching`).
-/

namespace Dataflow

open Relation

/-- Edges that leave `c` close no cycle if none leads to `c`. -/
theorem acyclic_of_unread {α : Type} {r r' : α → α → Prop} {c : α}
    (edges : ∀ u p, r' u p → r u p ∨ u = c) (unread : ∀ u, ¬ r' u c)
    (acyclic : ∀ n, ¬ TransGen r n n) (n : α) : ¬ TransGen r' n n := by
  -- a path that starts elsewhere never comes to `c`
  have avoid {a b : α} (path : TransGen r' a b) (ha : a ≠ c) : TransGen r a b := by
    induction path with
    | single edge => exact .single ((edges _ _ edge).resolve_right ha)
    | @tail b d before edge ih =>
      have hb : b ≠ c := by
        rintro rfl
        obtain ⟨u, -, last⟩ := TransGen.tail'_iff.1 before
        exact unread u last
      exact ih.tail ((edges _ _ edge).resolve_right hb)
  intro cycle
  by_cases hn : n = c
  · subst hn
    obtain ⟨u, -, last⟩ := TransGen.tail'_iff.1 cycle
    exact unread u last
  · exact acyclic n (avoid cycle hn)

namespace Graph

variable {g h : Graph}

/-- No node is reached from itself along operand edges. -/
def Acyclic (g : Graph) : Prop := ∀ n, ¬ TransGen g.Reads n n

/-- Every operand edge of `h` is one of `g`. -/
def Thins (g h : Graph) : Prop := ∀ u p, h.Reads u p → g.Reads u p

theorem Thins.acyclic (thins : g.Thins h) (acyclic : g.Acyclic) : h.Acyclic := fun n cycle =>
  acyclic n (TransGen.mono thins _ _ cycle)

/-! ## Edits that take edges away -/

theorem Thins.refl (g : Graph) : g.Thins g := fun _ _ edge => edge

theorem thins_of_reads (reads : ∀ x s v p, h.reads? x s = some v → v.node? = some p →
    g.reads? x s = some v) (stored : ∀ {n}, h.contains n → g.contains n) : g.Thins h := by
  rintro u p ⟨⟨s, v, read, hp⟩, there⟩
  exact ⟨⟨s, v, reads u s v p read hp, hp⟩, stored there⟩

theorem thins_of_operand (operand : ∀ x s, h.operand? x s = g.operand? x s)
    (stored : ∀ {n}, h.contains n → g.contains n) : g.Thins h :=
  thins_of_reads (fun x s v p read _ => by rwa [reads?, operand] at read) stored

theorem thins_connect_null (g : Graph) (user : NodeId) (s : Slot) :
    g.Thins (g.connect user s .null) := by
  refine thins_of_reads (fun x s' v p read hp => ?_) fun {n} there =>
    ((rewired_connect g user s .null).contains n).symm.trans there
  rw [reads?_connect] at read
  split_ifs at read
  · obtain ⟨_, -, rfl⟩ := Option.map_eq_some_iff.1 read
    cases hp
  · exact read

theorem Patched.thins (p : Patched (· = .null) g h) : g.Thins h := by
  induction p with
  | refl => exact .refl _
  | connect user s goal _ ih =>
    subst goal
    exact fun u q edge => thins_connect_null _ user s u q (ih u q edge)

/-- Erasing takes edges away. -/
theorem outlastsErasing_thins (g : Graph) : OutlastsErasing g.Thins where
  patched p thins u q edge := thins u q (p.thins u q edge)
  discard {k} f n thins u q edge := by
    refine thins u q (thins_of_reads (fun x s v p read _ => ?_) (fun {m} there => ?_) u q edge)
    · rw [reads?, operand?_discard] at read
      split_ifs at read
      · cases read
      · exact read
    · rw [contains_eq, node?_discard] at there
      split_ifs at there
      · cases there
      · rwa [contains_eq]
  funcs _ thins := thins

theorem thins_setType {n : NodeId} {i : Nat} {t : TensorType} (done : g.setType n i t = .ok h) :
    g.Thins h := by
  obtain ⟨f, rfl, same⟩ := exists_of_setType done
  exact thins_of_operand (operand?_modifyNode fun node stored => (same node stored).1) (by simp)

theorem thins_setName {n : NodeId} {name : String} (done : g.setName n name = .ok h) : g.Thins h := by
  rw [eq_of_setName done]
  exact thins_of_operand (operand?_modifyNode fun _ _ => funext fun s => by cases s <;> rfl) (by simp)

theorem thins_moveRange {source target : FuncId} {first last : NodeId} {before? : Option NodeId}
    {moved : Nat} (done : g.moveRange source first last target before? = .ok (h, moved)) :
    g.Thins h := by
  obtain ⟨nodes, -, done⟩ := bind_eq_ok_iff.1 done
  cases done
  refine thins_of_operand (operand?_move g nodes source target before?) fun {n} there => ?_
  rwa [contains_eq, node?_move, Option.isSome_map, ← contains_eq] at there

/-! ## Attaching -/

theorem reads?_link (g : Graph) (user x : NodeId) (s s' : Slot) (v : Value) :
    (g.link user s v).reads? x s' =
      if user = x ∧ s = s' then (g.reads? x s').map fun _ => v else g.reads? x s' := by
  rw [reads?, operand?_link, reads?]
  split_ifs <;> simp [Function.comp_def]

/-- Linking slots to what they read already changes nothing about what is read. -/
theorem reads?_foldl_link {user : NodeId} {operands : List (Slot × Value)}
    (held : ∀ e ∈ operands, g.reads? user e.1 = some e.2) (x : NodeId) (s : Slot) :
    (operands.foldl (fun g e => g.link user e.1 e.2) g).reads? x s = g.reads? x s := by
  induction operands generalizing g with
  | nil => rfl
  | cons e operands ih =>
    rw [List.forall_mem_cons] at held
    have same (x : NodeId) (s : Slot) : (g.link user e.1 e.2).reads? x s = g.reads? x s := by
      rw [reads?_link]
      split_ifs with here
      · obtain ⟨rfl, rfl⟩ := here
        rw [held.1, Option.map_some]
      · rfl
    rw [List.foldl_cons, ih fun e' he' => (same user e'.1).trans (held.2 e' he'), same]

theorem reads?_withNode (g : Graph) (n : Node) (x : NodeId) (s : Slot) :
    (g.withNode n).reads? x s = if n.id = x then (n.operand? s).map (·.value) else g.reads? x s := by
  rw [reads?, operand?_withNode, reads?]
  split_ifs <;> rfl

/-- A stored node reads what it read as a free node, and all others what they read before. -/
theorem reads?_store {n : Node} (absent : g.node? n.id = none)
    (readable : ∀ e ∈ n.operands, g.Readable e.2) (f : FuncId) (before? : Option NodeId) (x : NodeId)
    (s : Slot) : (g.store f n before?).reads? x s = (g.withNode n).reads? x s := by
  have owned : (g.withNode { n with parent? := some f }).reads? x s = (g.withNode n).reads? x s := by
    rw [reads?_withNode, reads?_withNode]
    cases s <;> rfl
  rw [store_eq absent readable]
  refine (reads?_foldl_link (fun e he => ?_) x s).trans owned
  obtain ⟨-, o, held, same⟩ := Node.mem_operands.1 he
  have held : Node.operand? { n with parent? := some f } e.1 = some o := by
    rw [← held]
    cases e.1 <;> rfl
  rw [reads?_withNode, if_pos rfl, held, Option.map_some, same]

/-- Nothing reads a node that is just being stored, so its edges close no cycle. -/
theorem Symmetric.acyclic_store (sym : g.Symmetric) (acyclic : g.Acyclic) {n : Node}
    (absent : g.node? n.id = none) (readable : ∀ e ∈ n.operands, g.Readable e.2) (f : FuncId)
    (before? : Option NodeId) : (g.store f n before?).Acyclic := by
  have reads (x : NodeId) (s : Slot) := (reads?_store absent readable f before? x s).trans
    (reads?_withNode g n x s)
  refine acyclic_of_unread (fun u p edge => ?_) (fun u edge => ?_) acyclic (c := n.id)
  · obtain ⟨⟨s, v, read, hp⟩, -⟩ := edge
    rw [reads] at read
    split_ifs at read with new
    · exact .inr new.symm
    · exact .inl ⟨⟨s, v, read, hp⟩, sym.readable read p hp⟩
  · obtain ⟨⟨s, v, read, hp⟩, -⟩ := edge
    have there : g.Readable v := by
      rw [reads] at read
      split_ifs at read with new
      · exact readable (s, v) (Node.mem_operands.2
          ⟨Value.ne_null_of_node? hp, Option.map_eq_some_iff.1 read⟩)
      · exact sym.readable read
    exact there.node?_ne absent hp

/-! ## Diagnosis -/

/-- An acyclic graph is diagnosed without a cycle. -/
theorem Owned.cycle_notMem_problemsIn (own : g.Owned) (acyclic : g.Acyclic) {func : Func}
    (hf : func ∈ g.funcs) :
    ∃ problems, g.problemsIn func.id = .ok problems ∧ ∀ n, .cycle n ∉ problems := by
  have found := own.funcOrRefusal_eq_ok_iff.2 ⟨hf, rfl⟩
  have none := (own.closingNodes_eq_nil_iff func.nodes).2 fun n _ => acyclic n
  refine ⟨_, by rw [problemsIn, found]; rfl, fun n listed => ?_⟩
  have named := (g.filterMap_cycleNode? func.id func.nodes).trans none
  exact Option.some_ne_none n (List.filterMap_eq_nil_iff.1 named _ listed)

end Graph

/-! ## Histories -/

/-- Whether an edit lets no slot of a stored node read another value than null. What a free node reads
does not matter, nor does attaching it. -/
def Edit.connectsNothing : Edit → Bool
  | .setInput _ _ v | .setPredicate _ v | .replaceUses _ v => v.isNull
  | .replaceNode .. | .forceUse .. => false
  | _ => true

theorem Edit.plantsUse_of_connectsNothing {e : Edit} (idle : e.connectsNothing) :
    e.plantsUse = false := by
  cases e <;> first | rfl | cases idle

theorem Value.eq_null_of_isNull {v : Value} (null : v.isNull) : v = .null := by
  cases v with
  | null => rfl
  | result => cases null

namespace Workspace

variable {w : Workspace}

theorem Consistent.acyclic_attach (co : w.Consistent) (acyclic : w.graph.Acyclic) (n : NodeId)
    (f : FuncId) (before? : Option NodeId) : (w.attach n f before?).1.graph.Acyclic := by
  refine attach_of_forall (P := fun w' => w'.graph.Acyclic) acyclic acyclic fun d h held done => ?_
  obtain ⟨rfl, -, -, absent⟩ := co.draft held
  obtain ⟨rfl, -, -, readable⟩ := co.coherent.owned.eq_of_attach done
  exact co.coherent.symmetric.acyclic_store acyclic absent readable f before?

/-- An edit that connects no slot of a stored node keeps the graph acyclic. -/
theorem Consistent.acyclic_apply (co : w.Consistent) (acyclic : w.graph.Acyclic) {e : Edit}
    (idle : e.connectsNothing) : (w.apply e).1.graph.Acyclic := by
  have map {α : Type} {result : Except Fault α} {reply : α → Graph × Reply}
      (done : ∀ a, result = .ok a → w.graph.Thins (reply a).1) :
      (w.edit (result.map reply)).1.graph.Acyclic :=
    editMap_of_forall (P := fun w' => w'.graph.Acyclic) acyclic fun a ok => (done a ok).acyclic acyclic
  have mapError {α : Type} {result : Except Refusal α} {reply : α → Graph × Reply}
      (done : ∀ a, result = .ok a → w.graph.Thins (reply a).1) :
      (w.edit ((result.map reply).mapError .refused)).1.graph.Acyclic :=
    editMapError_of_forall (P := fun w' => w'.graph.Acyclic) acyclic fun a ok =>
      (done a ok).acyclic acyclic
  cases e with
  | reserveNode | reserveFunc | addFunc => exact acyclic
  | make spec => exact w.graph_make spec ▸ acyclic
  | clone n => exact w.graph_clone n ▸ acyclic
  | pushInput | setDraftInput | addResult | setDraftType | setDraftName | forceParent =>
    rw [Workspace.apply, graph_changeDraft]
    exact acyclic
  | setDraftPredicate n v => exact w.graph_guardDraft n v ▸ acyclic
  | forceUse | replaceNode => cases idle
  | eraseFunc f => exact (w.graph.outlastsErasing_thins.eraseFunc (.refl _) f).acyclic acyclic
  | attach n f before? => exact co.acyclic_attach acyclic n f before?
  | setInput n i v =>
    obtain rfl := Value.eq_null_of_isNull idle
    refine map fun h ok => ?_
    obtain ⟨-, rfl⟩ := Graph.eq_of_setInput ok
    exact w.graph.thins_connect_null n (.input i)
  | setPredicate n v =>
    obtain rfl := Value.eq_null_of_isNull idle
    refine mapError fun h ok => ?_
    obtain ⟨-, rfl⟩ := Graph.eq_of_setPredicate ok
    exact w.graph.thins_connect_null n .predicate
  | setType n i t => exact map fun _ ok => Graph.thins_setType ok
  | setName n name => exact mapError fun _ ok => Graph.thins_setName ok
  | clearOperands n =>
    refine mapError fun h ok => ?_
    obtain ⟨slots, rfl⟩ := Graph.exists_of_clearOperands ok
    exact (w.graph.patched_clearSlots n slots).thins
  | replaceUses source target =>
    obtain rfl := Value.eq_null_of_isNull idle
    exact (w.graph.patched_replaceUses source .null).thins.acyclic acyclic
  | clearUses n => exact (w.graph.patched_clearUses n).thins.acyclic acyclic
  | eraseNode f n => exact (w.graph.outlastsErasing_thins.eraseNode (.refl _) f n).acyclic acyclic
  | moveRange source first last target before? =>
    refine mapError fun a ok => ?_
    obtain ⟨k, moved⟩ := a
    exact Graph.thins_moveRange ok

theorem Consistent.acyclic_run (co : w.Consistent) (acyclic : w.graph.Acyclic) {edits : List Edit}
    (idle : ∀ e ∈ edits, e.connectsNothing) : (w.run edits).graph.Acyclic := by
  unfold Workspace.run
  induction edits generalizing w with
  | nil => exact acyclic
  | cons e edits ih =>
    rw [List.forall_mem_cons] at idle
    have honest := Edit.plantsUse_of_connectsNothing idle.1
    exact ih (co.apply honest).consistent (co.acyclic_apply acyclic idle.1) idle.2

theorem acyclic_empty : empty.graph.Acyclic := by
  intro n cycle
  obtain ⟨p, edge, -⟩ := TransGen.head'_iff.1 cycle
  obtain ⟨node, stored⟩ := edge.source
  rw [show empty.graph = Graph.empty from rfl, Graph.node?_empty] at stored
  cases stored

/-- A history that connects slots only by attaching nodes leaves an acyclic graph, and the diagnosis of
none of its functions contains a cycle. -/
theorem acyclic_of_attaching {edits : List Edit} (idle : ∀ e ∈ edits, e.connectsNothing) :
    (empty.run edits).graph.Acyclic ∧ ∀ func ∈ (empty.run edits).graph.funcs,
      ∃ problems, (empty.run edits).graph.problemsIn func.id = .ok problems ∧
        ∀ n, .cycle n ∉ problems := by
  have co : (empty.run edits).Consistent := consistent_empty.run fun e he =>
    Edit.plantsUse_of_connectsNothing (idle e he)
  have acyclic := consistent_empty.acyclic_run acyclic_empty idle
  exact ⟨acyclic, fun func hf => co.coherent.owned.cycle_notMem_problemsIn acyclic hf⟩

/-- A history in which a free node comes to read a node made after it, is copied, and is attached in
front of what it reads. -/
def lateFilled : List Edit :=
  let t : TensorType := ⟨.float, [2]⟩
  [.addFunc "main",
    .make { op := .relu, name := "late", results := [some t] },
    .make { op := .placeholder, name := "x", results := [some t] },
    .pushInput ⟨0⟩ (.result ⟨1⟩ 0), .clone ⟨0⟩,
    .attach ⟨1⟩ ⟨0⟩ none, .attach ⟨0⟩ ⟨0⟩ (some ⟨1⟩), .attach ⟨2⟩ ⟨0⟩ none,
    .setInput ⟨2⟩ 0 .null]

theorem acyclic_of_attaching_lateFilled :
    (∀ e ∈ lateFilled, e.connectsNothing) ∧ (empty.run lateFilled).graph.Reads ⟨0⟩ ⟨1⟩ ∧
      (empty.run lateFilled).graph.Acyclic := by
  have idle : ∀ e ∈ lateFilled, e.connectsNothing := by decide
  exact ⟨idle, ⟨⟨.input 0, .result ⟨1⟩ 0, by decide +kernel, rfl⟩, by decide +kernel⟩,
    (acyclic_of_attaching idle).1⟩

end Workspace

end Dataflow
