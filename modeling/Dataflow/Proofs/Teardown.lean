import Dataflow.Proofs.Verification
import Mathlib.Data.Finset.Lattice.Lemmas

/-!
# Teardown

Of a graph one can see everything but tokens and the inner layout of its lists (`Graph.view`). Seen
in this way, erasing a node takes it and its uses of others away, disconnects the slots that read it
and leaves the rest as it was (`Coherent.view_eraseNode`). Taking away nodes one after the other is
taking away all of them (`Graph.View.without_without`), so the order of erasing does not matter, and
erasing a function is erasing its nodes.
-/

namespace Dataflow

/-! ## Views -/

/-- What can be seen of a stored node. -/
structure Node.View where
  op : Op
  name : String
  results : List (Option TensorType)
  parent? : Option FuncId
  predicate : Value
  inputs : List Value
  uses : List Use

/-- A node as it can be seen. -/
def Node.view (n : Node) : Node.View where
  op := n.op
  name := n.name
  results := n.results
  parent? := n.parent?
  predicate := n.predicate.value
  inputs := n.inputValues
  uses := n.uses.toList

/-- What can be seen of a function. -/
structure Func.View where
  id : FuncId
  name : String
  nodes : List NodeId

/-- A function as it can be seen. -/
def Func.view (f : Func) : Func.View := ⟨f.id, f.name, f.nodes⟩

/-- What can be seen of a graph. -/
@[ext]
structure Graph.View where
  /-- The functions in order of creation. -/
  funcs : List Func.View
  node? : NodeId → Option Node.View

/-- A graph as it can be seen. -/
def Graph.view (g : Graph) : Graph.View := ⟨g.funcs.map Func.view, fun n => (g.node? n).map Node.view⟩

/-! ## Leaving nodes out -/

/-- The null reference in place of a result of one of the nodes. -/
def Value.without (ns : Finset NodeId) : Value → Value
  | null => null
  | result n i => if n ∈ ns then null else result n i

/-- The node without its operands that are results of the nodes, and without their uses of it. -/
def Node.View.without (ns : Finset NodeId) (v : Node.View) : Node.View :=
  { v with
    predicate := v.predicate.without ns, inputs := v.inputs.map (·.without ns)
    uses := v.uses.filter (·.user ∉ ns) }

/-- The function without the nodes. -/
def Func.View.without (ns : Finset NodeId) (v : Func.View) : Func.View :=
  { v with nodes := v.nodes.filter (· ∉ ns) }

namespace Graph

/-- The graph without the nodes, without their uses and with the slots that read them
disconnected. -/
def View.without (ns : Finset NodeId) (v : View) : View where
  funcs := v.funcs.map (·.without ns)
  node? n := if n ∈ ns then none else (v.node? n).map (·.without ns)

/-- The graph without a function. -/
def View.withoutFunc (f : FuncId) (v : View) : View :=
  { v with funcs := v.funcs.filter (·.id ≠ f) }

end Graph

theorem Value.without_without (ns ms : Finset NodeId) (v : Value) :
    (v.without ns).without ms = v.without (ns ∪ ms) := by
  cases v with
  | null => rfl
  | result n i => by_cases hn : n ∈ ns <;> by_cases hm : n ∈ ms <;> simp [Value.without, hn, hm]

theorem Value.without_singleton (n : NodeId) (v : Value) :
    v.without {n} = if v.node? = some n then .null else v := by
  cases v <;> simp [Value.without, Value.node?]

theorem Node.View.without_without (ns ms : Finset NodeId) (v : Node.View) :
    (v.without ns).without ms = v.without (ns ∪ ms) := by
  simp only [without, Value.without_without, List.map_map, List.filter_filter, Node.View.mk.injEq,
    true_and]
  refine ⟨List.map_congr_left fun v _ => Value.without_without ns ms v, ?_⟩
  refine List.filter_congr fun u _ => ?_
  by_cases hn : u.user ∈ ns <;> simp [hn]

theorem Func.View.without_without (ns ms : Finset NodeId) (v : Func.View) :
    (v.without ns).without ms = v.without (ns ∪ ms) := by
  simp only [without, List.filter_filter, Func.View.mk.injEq, true_and]
  refine List.filter_congr fun n _ => ?_
  by_cases hn : n ∈ ns <;> simp [hn]

namespace Graph

/-- Leaving out some nodes and then others leaves out all of them. -/
theorem View.without_without (ns ms : Finset NodeId) (v : View) :
    (v.without ns).without ms = v.without (ns ∪ ms) := by
  refine View.ext ?_ (funext fun n => ?_)
  · simp only [without, List.map_map]
    exact List.map_congr_left fun f _ => f.without_without ns ms
  · by_cases hn : n ∈ ns <;> by_cases hm : n ∈ ms <;>
      simp [without, hn, hm, Function.comp_def, Node.View.without_without]

theorem View.without_empty (v : View) : v.without ∅ = v := by
  have value (x : Value) : x.without ∅ = x := by cases x <;> rfl
  have node (x : Node.View) : x.without ∅ = x := by simp [Node.View.without, value]
  have func (x : Func.View) : x.without ∅ = x := by simp [Func.View.without]
  refine View.ext ?_ (funext fun n => ?_)
  · simp [without, func]
  · simp [without, node]

/-! ## Erasing -/

/-- Of every other node, detaching a node leaves out the uses of that node and by it. -/
theorem Detached.view_eq {g h : Graph} {n m : NodeId} (d : g.Detached n h) (ne : m ≠ n)
    {old new : Node} (before : g.node? m = some old) (after : h.node? m = some new) :
    new.view = old.view.without {n} := by
  obtain ⟨old', before', same⟩ := d.rewired.exists_node after
  obtain rfl := Option.some.inj (before.symm.trans before')
  obtain ⟨-, op, results, parent, -⟩ := Node.same_of_bare same
  have name : old.name = new.name := by
    change old.bare.name = new.bare.name
    rw [same]
  have reads : ∀ s, h.reads? m s = (g.reads? m s).map (·.without {n}) := fun s => by
    simp only [d.reads, ne, false_or, Value.without_singleton]
  obtain ⟨inputs, predicate⟩ := operands_of_reads before after reads
  have uses := d.uses m ne
  rw [allUses_of_stored after, allUses_of_stored before] at uses
  simp [Node.view, Node.View.without, op, name, results, parent, inputs, predicate, uses]

/-- A detached and discarded node is left out. -/
theorem Coherent.view_discard {g h : Graph} (co : g.Coherent) {f : FuncId} {n : NodeId}
    (listed : g.Lists f n) (d : g.Detached n h) :
    (h.discard f n).view = g.view.without {n} := by
  refine View.ext ?_ (funext fun m => ?_)
  · simp only [view, View.without, discard, modifyRoster, d.rewired.funcs, List.map_map]
    refine List.map_congr_left fun func hf => ?_
    simp only [Function.comp_apply, Func.View.without, Finset.mem_singleton]
    split_ifs with same
    · simp only [Func.view, Func.nodes, Roster.toList_remove?]
    · -- the node is on the roster of its own function only
      have others : func.view.nodes.filter (· ≠ n) = func.view.nodes := by
        rw [List.filter_eq_self]
        intro m hm
        rw [decide_eq_true_eq]
        rintro rfl
        exact same (co.owned.owner_unique ⟨func, hf, rfl, hm⟩ listed)
      rw [others]
  · simp only [view, View.without, node?_discard, Finset.mem_singleton]
    by_cases hm : m = n
    · simp [hm]
    · rw [if_neg (Ne.symm hm), if_neg hm, Option.map_map]
      cases after : h.node? m with
      | none =>
        have absent := d.rewired.contains m
        rw [contains_eq, contains_eq, after, Option.isSome_none, eq_comm,
          Option.isSome_eq_false_iff, Option.isNone_iff_eq_none] at absent
        rw [absent]
        rfl
      | some new =>
        obtain ⟨old, before, -⟩ := d.rewired.exists_node after
        rw [before, Option.map_some, Option.map_some, d.view_eq hm before after]
        rfl

/-- Erasing a listed node succeeds and leaves it out. -/
theorem Coherent.view_eraseNode {g : Graph} (co : g.Coherent) {f : FuncId} {n : NodeId}
    (listed : g.Lists f n) :
    ∃ h, g.eraseNode f n = (h, .ok ()) ∧ Erased g [n] h ∧ h.view = g.view.without {n} := by
  obtain ⟨h, eq, er⟩ := co.eraseNode listed
  obtain ⟨k, eq', d⟩ := co.exists_detached listed
  obtain ⟨rfl, -⟩ := Prod.mk.inj (eq.symm.trans eq')
  exact ⟨_, eq, er, co.view_discard listed d⟩

/-- Erasing nodes of a function one after the other leaves them out. -/
theorem Coherent.view_eraseNodes {g h : Graph} (co : g.Coherent) {f : FuncId} {ns : List NodeId}
    (nodup : ns.Nodup) (listed : ∀ n ∈ ns, g.Lists f n)
    (done : Graph.eraseNodes f ns g = (h, .ok ())) : h.view = g.view.without ns.toFinset := by
  induction ns generalizing g with
  | nil =>
    obtain ⟨rfl, -⟩ := Prod.mk.inj done
    exact (View.without_empty _).symm
  | cons n ns ih =>
    rw [List.nodup_cons] at nodup
    rw [List.forall_mem_cons] at listed
    obtain ⟨k, eq, er, left⟩ := co.view_eraseNode listed.1
    rw [Graph.eraseNodes, eq] at done
    have rest := ih er.coherent nodup.2 (fun m hm => er.lists.2
      ⟨listed.2 m hm, fun h => nodup.1 (List.mem_singleton.1 h ▸ hm)⟩) done
    rw [rest, left, View.without_without, List.toFinset_cons, Finset.insert_eq]

/-- Erasing a function leaves it out together with its nodes. -/
theorem Coherent.view_eraseFunc {g : Graph} (co : g.Coherent) {func : Func} (hf : func ∈ g.funcs) :
    ∃ h, g.eraseFunc func.id = (h, .ok ()) ∧
      h.view = (g.view.without func.nodes.toFinset).withoutFunc func.id := by
  have listed : ∀ n ∈ func.nodes, g.Lists func.id n := fun n hn => ⟨func, hf, rfl, hn⟩
  obtain ⟨h, done, -⟩ := co.eraseNodes func.roster.nodup listed
  have left := co.view_eraseNodes func.roster.nodup listed done
  have found := co.owned.funcOrRefusal_eq_ok_iff.2 ⟨hf, rfl⟩
  refine ⟨{ h with funcs := h.funcs.filter (·.id ≠ func.id) }, ?_, ?_⟩
  · have done : Graph.eraseNodes func.id func.nodes g = (h, .ok ()) := done
    rw [Graph.eraseFunc, guarded_of_ok found, done]
  · have left : h.view = g.view.without func.nodes.toFinset := left
    rw [← left]
    refine View.ext ?_ rfl
    simp only [view, View.withoutFunc, List.filter_map]
    rfl

end Graph

namespace Workspace

/-- The edit that erases a node from its owner. -/
def eraseOwned (owner : NodeId → FuncId) (n : NodeId) : Edit := .eraseNode (owner n) n

/-- Erasing nodes of any functions one after the other succeeds each time and leaves them out. -/
theorem Consistent.run_eraseOwned {w : Workspace} (co : w.Consistent) {owner : NodeId → FuncId}
    {order : List NodeId} (nodup : order.Nodup) (listed : ∀ n ∈ order, w.graph.Lists (owner n) n) :
    (∀ front n back, order = front ++ n :: back →
      ((w.run (front.map (eraseOwned owner))).apply (eraseOwned owner n)).2 = .ok .done) ∧
    (w.run (order.map (eraseOwned owner))).graph.view = w.graph.view.without order.toFinset := by
  induction order generalizing w with
  | nil => exact ⟨by simp, (Graph.View.without_empty _).symm⟩
  | cons m order ih =>
    rw [List.nodup_cons] at nodup
    rw [List.forall_mem_cons] at listed
    obtain ⟨h, eq, er, left⟩ := co.coherent.view_eraseNode listed.1
    have step : w.apply (eraseOwned owner m) = ({ w with graph := h }, .ok .done) := by
      simp only [eraseOwned, Workspace.apply, Workspace.editPartly, eq]
      rfl
    have co' : Consistent { w with graph := h } := by
      have := co.apply (e := eraseOwned owner m) rfl
      rw [step] at this
      exact this.consistent
    obtain ⟨succeeds, rest⟩ := ih co' nodup.2 fun n hn => er.lists.2
      ⟨listed.2 n hn, fun h => nodup.1 (List.mem_singleton.1 h ▸ hn)⟩
    refine ⟨fun front n back split => ?_, ?_⟩
    · cases front with
      | nil =>
        obtain ⟨rfl, -⟩ := List.cons.inj split
        exact congrArg Prod.snd step
      | cons m' front =>
        rw [List.cons_append, List.cons.injEq] at split
        obtain ⟨rfl, split⟩ := split
        have := succeeds front n back split
        simpa only [Workspace.run, List.map_cons, List.foldl_cons, step] using this
    · simp only [Workspace.run, List.map_cons, List.foldl_cons, step] at rest ⊢
      rw [rest, left, Graph.View.without_without, List.toFinset_cons, Finset.insert_eq]

/-- Any nodes of a reachable workspace can be erased in any order, each from its owner: every edit
succeeds, and what is left is the graph without these nodes, whatever the order. Erasing a function
leaves the graph without its nodes and without the function. -/
theorem Reachable.teardown_in_any_order {w : Workspace} (reach : w.Reachable) :
    (∀ (ns : Finset NodeId) (owner : NodeId → FuncId),
      (∀ n ∈ ns, ∃ node, w.graph.node? n = some node ∧ node.parent? = some (owner n)) →
      ∀ order : List NodeId, order.Nodup → order.toFinset = ns →
        (∀ front n back, order = front ++ n :: back →
          ((w.run (front.map (eraseOwned owner))).apply (eraseOwned owner n)).2 = .ok .done) ∧
        (w.run (order.map (eraseOwned owner))).graph.view = w.graph.view.without ns) ∧
    ∀ func ∈ w.graph.funcs, (w.apply (.eraseFunc func.id)).2 = .ok .done ∧
      (w.apply (.eraseFunc func.id)).1.graph.view =
        (w.graph.view.without func.nodes.toFinset).withoutFunc func.id := by
  have co := reach.consistent
  refine ⟨fun ns owner owned order nodup all => ?_, fun func hf => ?_⟩
  · subst all
    refine co.run_eraseOwned nodup fun n hn => ?_
    obtain ⟨node, stored, parent⟩ := owned n (List.mem_toFinset.2 hn)
    obtain ⟨f, parent', listed⟩ := co.coherent.owned.owner stored
    obtain rfl := Option.some.inj (parent.symm.trans parent')
    exact listed
  · obtain ⟨h, eq, left⟩ := co.coherent.view_eraseFunc hf
    simp only [Workspace.apply, Workspace.editPartly, eq]
    exact ⟨rfl, left⟩

/-- A history that leaves a cycle of two nodes beside a node that reads itself. -/
def tangle : List Edit :=
  diamond ++ [.setPredicate ⟨1⟩ (.result ⟨3⟩ 0), .setInput ⟨2⟩ 0 (.result ⟨2⟩ 0)]

theorem reachable_tangle : (empty.run tangle).Reachable := ⟨tangle, by decide, rfl⟩

theorem teardown_in_any_order_tangle :
    let erase := eraseOwned fun _ => ⟨0⟩
    (∀ n ∈ ({⟨1⟩, ⟨2⟩, ⟨3⟩} : Finset NodeId), ∃ node,
      (empty.run tangle).graph.node? n = some node ∧ node.parent? = some ⟨0⟩) ∧
    ((empty.run tangle).run ([⟨3⟩, ⟨1⟩, ⟨2⟩].map erase)).graph.view =
      (empty.run tangle).graph.view.without {⟨1⟩, ⟨2⟩, ⟨3⟩} ∧
    ((empty.run tangle).run ([⟨1⟩, ⟨2⟩, ⟨3⟩].map erase)).graph.view =
      (empty.run tangle).graph.view.without {⟨1⟩, ⟨2⟩, ⟨3⟩} ∧
    ((empty.run tangle).apply (.eraseFunc ⟨0⟩)).2 = .ok .done := by
  have owned : ∀ n ∈ ({⟨1⟩, ⟨2⟩, ⟨3⟩} : Finset NodeId), ∃ node,
      (empty.run tangle).graph.node? n = some node ∧ node.parent? = some ⟨0⟩ := by
    simp only [Finset.mem_insert, Finset.mem_singleton]
    rintro n (rfl | rfl | rfl) <;> exact ⟨_, rfl, by decide⟩
  obtain ⟨nodes, func⟩ := Reachable.teardown_in_any_order reachable_tangle
  exact ⟨owned, (nodes _ _ owned _ (by decide) (by decide)).2,
    (nodes _ _ owned _ (by decide) (by decide)).2, (func _ (List.mem_singleton_self _)).1⟩

end Workspace

end Dataflow
