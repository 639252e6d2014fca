import Dataflow.Proofs.CycleSearch
import Dataflow.Proofs.Teardown
import Dataflow.Walk.PostOrder

/-!
# Post orders

A post order under construction is `PostOrder.Sound`: it lists visited nodes, each of them once, and
what a listed node reads within the scope stands before it unless it leads back to the node. The
second part is what a depth-first walk can promise on a cyclic graph. It is established when a node
is left: what the node reads has then been left before, or it has not been left yet and lies above
the node. Walks from some roots list exactly the nodes below them within the scope
(`Owned.orderBelow_spec`).
-/

namespace Dataflow

open Relation

namespace Graph

/-! ## Scopes -/

/-- The node `n` is stored and belongs to the function `scope?`, if there is one. -/
def InScope (g : Graph) (scope? : Option FuncId) (n : NodeId) : Prop :=
  ∃ node, g.node? n = some node ∧ ∀ f, scope? = some f → node.parent? = some f

/-- The operand edges to nodes of the scope. -/
def ReadsWithin (g : Graph) (scope? : Option FuncId) (u p : NodeId) : Prop :=
  g.Reads u p ∧ g.InScope scope? p

/-- The roots that belong to the scope, and the nodes below them along paths within the scope. -/
def BelowWithin (g : Graph) (scope? : Option FuncId) (roots : List NodeId) (n : NodeId) : Prop :=
  ∃ r ∈ roots, g.InScope scope? r ∧ ReflTransGen (g.ReadsWithin scope?) r n

theorem inScope_iff {g : Graph} {scope? : Option FuncId} {n : NodeId} {node : Node}
    (stored : g.node? n = some node) :
    g.InScope scope? n ↔ ∀ f, scope? = some f → node.parent? = some f := by
  simp only [InScope, stored, Option.some.injEq, exists_eq_left']

theorem InScope.contains {g : Graph} {scope? : Option FuncId} {n : NodeId}
    (inScope : g.InScope scope? n) : g.contains n := by
  obtain ⟨node, stored, -⟩ := inScope
  exact contains_of_node? stored

theorem inScope_none_iff {g : Graph} {n : NodeId} : g.InScope none n ↔ g.contains n := by
  refine ⟨InScope.contains, fun here => ?_⟩
  obtain ⟨node, stored⟩ := contains_iff.1 here
  exact (inScope_iff stored).2 fun f hf => by cases hf

theorem readsWithin_none (g : Graph) : g.ReadsWithin none = g.Reads := by
  funext u p
  rw [ReadsWithin, inScope_none_iff, eq_iff_iff, and_iff_left_iff_imp]
  exact And.right

end Graph

namespace PostOrder

/-- Visited and not yet left. -/
def Active (s : PostOrder) (n : NodeId) : Prop := n ∈ s.visited ∧ n ∉ s.order.toList

/-! ## Sound states -/

/-- A post order without a fault so far. -/
structure Sound (g : Graph) (scope? : Option FuncId) (s : PostOrder) : Prop where
  listed : ∀ {n}, n ∈ s.order.toList → n ∈ s.visited
  nodup : s.order.toList.Nodup
  ordered : ∀ {u v}, u ∈ s.order.toList → g.ReadsWithin scope? u v → v ∈ s.visited ∧
    ([v, u].Sublist s.order.toList ∨ ReflTransGen (g.ReadsWithin scope?) v u)

/-- What a walk from the nodes `ns` does to a post order. -/
structure Extends (g : Graph) (scope? : Option FuncId) (ns : List NodeId) (s t : PostOrder) :
    Prop where
  order : s.order.toList <+: t.order.toList
  visited : ∀ {n}, n ∈ s.visited → n ∈ t.visited
  active : ∀ {n}, t.Active n ↔ s.Active n
  covered : ∀ {n}, n ∈ ns → g.InScope scope? n → n ∈ t.visited
  reached : ∀ {d}, d ∈ t.visited →
    d ∈ s.visited ∨ ∃ n ∈ ns, g.InScope scope? n ∧ ReflTransGen (g.ReadsWithin scope?) n d

variable {g : Graph} {scope? : Option FuncId} {ns : List NodeId} {n : NodeId} {s t u : PostOrder}

theorem Sound.initial (g : Graph) (scope? : Option FuncId) : Sound g scope? {} where
  listed h := absurd h List.not_mem_nil
  nodup := List.nodup_nil
  ordered h := absurd h List.not_mem_nil

theorem Sound.enter (inv : s.Sound g scope?) (n : NodeId) :
    { s with visited := s.visited.insert n }.Sound g scope? where
  listed h := Std.ExtTreeSet.mem_insert.2 (.inr (inv.listed h))
  nodup := inv.nodup
  ordered h read := (inv.ordered h read).imp_left fun h => Std.ExtTreeSet.mem_insert.2 (.inr h)

/-- A node is left when all that it reads within the scope is left or leads to it. -/
theorem Sound.leave (inv : s.Sound g scope?) (active : s.Active n)
    (below : ∀ v, g.ReadsWithin scope? n v → v ∈ s.visited ∧
      (v ∈ s.order.toList ∨ ReflTransGen (g.ReadsWithin scope?) v n)) :
    { s with order := s.order.push n }.Sound g scope? := by
  refine ⟨fun {m} hm => ?_, ?_, fun {u v} hu read => ?_⟩
  · rw [Array.toList_push, List.mem_append, List.mem_singleton] at hm
    rcases hm with hm | rfl
    · exact inv.listed hm
    · exact active.1
  · rw [Array.toList_push, List.nodup_append]
    refine ⟨inv.nodup, List.nodup_singleton n, fun a ha b hb => ?_⟩
    obtain rfl := List.mem_singleton.1 hb
    rintro rfl
    exact active.2 ha
  · rw [Array.toList_push] at hu ⊢
    rcases List.mem_append.1 hu with hu | hu
    · exact (inv.ordered hu read).imp_right
        (Or.imp_left fun before => before.trans (List.sublist_append_left _ _))
    · obtain rfl := List.mem_singleton.1 hu
      refine (below v read).imp_right (Or.imp_left fun hv => ?_)
      exact (List.singleton_sublist.2 hv).append (List.Sublist.refl [u])

/-! ## Walking -/

theorem Extends.nil (s : PostOrder) : Extends g scope? [] s s where
  order := List.prefix_rfl
  visited := id
  active := Iff.rfl
  covered h := absurd h List.not_mem_nil
  reached := .inl

theorem Extends.cons (first : Extends g scope? [n] s t) (rest : Extends g scope? ns t u) :
    Extends g scope? (n :: ns) s u := by
  refine ⟨first.order.trans rest.order, rest.visited ∘ first.visited,
    rest.active.trans first.active, fun {m} hm inScope => ?_, fun {d} hd => ?_⟩
  · rcases List.mem_cons.1 hm with rfl | hm
    · exact rest.visited (first.covered (List.mem_singleton_self _) inScope)
    · exact rest.covered hm inScope
  · rcases rest.reached hd with hd | ⟨m, hm, path⟩
    · rcases first.reached hd with hd | ⟨m, hm, path⟩
      · exact .inl hd
      · obtain rfl := List.mem_singleton.1 hm
        exact .inr ⟨_, List.mem_cons_self .., path⟩
    · exact .inr ⟨m, List.mem_cons_of_mem _ hm, path⟩

/-- A node that is not entered is out of scope or visited. -/
theorem Extends.passed (passed : g.InScope scope? n → n ∈ s.visited) :
    Extends g scope? [n] s s where
  order := List.prefix_rfl
  visited := id
  active := Iff.rfl
  covered hm inScope := by
    obtain rfl := List.mem_singleton.1 hm
    exact passed inScope
  reached := .inl

theorem Extends.entered {node : Node} (stored : g.node? n = some node)
    (inScope : g.InScope scope? n) (unvisited : n ∉ s.visited)
    (below : Extends g scope? node.operandNodes { s with visited := s.visited.insert n } t) :
    Extends g scope? [n] s { t with order := t.order.push n } := by
  refine ⟨?_, fun h => below.visited (Std.ExtTreeSet.mem_insert.2 (.inr h)), fun {m} => ?_,
    fun {m} hm _ => ?_, fun {d} hd => ?_⟩
  · rw [Array.toList_push]
    exact below.order.trans (List.prefix_append _ _)
  · have left : PostOrder.Active { t with order := t.order.push n } m ↔ t.Active m ∧ m ≠ n := by
      simp only [Active, Array.toList_push, List.mem_append, List.mem_singleton]
      tauto
    rw [left, below.active]
    simp only [Active, Std.ExtTreeSet.mem_insert, NodeId.compare_eq_iff]
    constructor
    · rintro ⟨⟨rfl | hm, unlisted⟩, ne⟩
      · exact absurd rfl ne
      · exact ⟨hm, unlisted⟩
    · exact fun ⟨hm, unlisted⟩ => ⟨⟨.inr hm, unlisted⟩, fun same => unvisited (same ▸ hm)⟩
  · obtain rfl := List.mem_singleton.1 hm
    exact below.visited (Std.ExtTreeSet.mem_insert.2 (.inl (NodeId.compare_eq_iff.2 rfl)))
  · rcases below.reached hd with hd | ⟨e, he, inScope', path⟩
    · rcases Std.ExtTreeSet.mem_insert.1 hd with same | hd
      · obtain rfl := NodeId.compare_eq_iff.1 same
        exact .inr ⟨_, List.mem_singleton_self _, inScope, .refl⟩
      · exact .inl hd
    · have read : g.ReadsWithin scope? n e :=
        ⟨(Graph.reads_iff stored).2 ⟨he, inScope'.contains⟩, inScope'⟩
      exact .inr ⟨n, List.mem_singleton_self n, inScope, .head read path⟩

/-- A node is entered if it belongs to the scope and has not been visited. -/
theorem accepts_eq {p? : Option Node} {node : Node} {b : Bool} {s' : PostOrder}
    (answer : (walker scope?).accepts p? node s = (b, s')) :
    s' = s ∧ (b = true ↔
      (∀ f, scope? = some f → node.parent? = some f) ∧ node.id ∉ s.visited) := by
  have outside : node.id ∉ s.visited ↔ s.visited.contains node.id = false := by
    rw [← Std.ExtTreeSet.contains_iff_mem, Bool.not_eq_true]
  obtain ⟨rfl, rfl⟩ := Prod.mk.inj answer
  rw [outside]
  cases scope? <;> simp

/-- A walk below the active nodes leaves a sound state. -/
theorem Sound.walk (own : g.Owned) {parent? : Option NodeId}
    (walk : (walker scope?).Walks g parent? ns s t) (inv : s.Sound g scope?)
    (above : ∀ a, s.Active a → ∀ n ∈ ns, g.InScope scope? n →
      ReflTransGen (g.ReadsWithin scope?) a n) :
    t.Sound g scope? ∧ Extends g scope? ns s t := by
  induction walk with
  | nil => exact ⟨inv, .nil _⟩
  | missing absent _ ih =>
    obtain ⟨inv', ext⟩ := ih inv fun a ha n hn => above a ha n (List.mem_cons_of_mem _ hn)
    refine ⟨inv', (Extends.passed fun inScope => ?_).cons ext⟩
    exact absurd inScope.contains (Graph.not_contains_iff.2 absent)
  | refused stored answer _ ih =>
    obtain ⟨rfl, refused⟩ := accepts_eq answer
    obtain ⟨inv', ext⟩ := ih inv fun a ha n hn => above a ha n (List.mem_cons_of_mem _ hn)
    refine ⟨inv', (Extends.passed fun inScope => ?_).cons ext⟩
    by_contra unvisited
    rw [← own.node_id stored] at unvisited
    cases refused.2 ⟨(Graph.inScope_iff stored).1 inScope, unvisited⟩
  | @entered parent? n ns _ t node s u stored answer _ _ ihBelow ihRest =>
    obtain ⟨rfl, accepted⟩ := accepts_eq answer
    obtain ⟨inScope, unvisited⟩ := accepted.1 rfl
    have inScope := (Graph.inScope_iff stored).2 inScope
    simp only [walker, own.node_id stored] at unvisited ihBelow ihRest
    have reads {e : NodeId} (he : e ∈ node.operandNodes) (inScope' : g.InScope scope? e) :
        g.ReadsWithin scope? n e := ⟨(Graph.reads_iff stored).2 ⟨he, inScope'.contains⟩, inScope'⟩
    obtain ⟨inv', below⟩ := ihBelow (inv.enter n) fun a ha e he inScope' => by
      rcases Std.ExtTreeSet.mem_insert.1 ha.1 with same | visited
      · exact NodeId.compare_eq_iff.1 same ▸ .single (reads he inScope')
      · exact (above a ⟨visited, ha.2⟩ n (List.mem_cons_self ..) inScope).tail (reads he inScope')
    have unlisted : n ∉ s.order.toList := fun h => unvisited (inv.listed h)
    have here : u.Active n := below.active.2
      ⟨Std.ExtTreeSet.mem_insert.2 (.inl (NodeId.compare_eq_iff.2 rfl)), unlisted⟩
    -- What `n` reads has been left, or it is active and so it is `n` or lies above `n`.
    have inv' := inv'.leave here fun v read => by
      have visited := below.covered ((Graph.reads_iff stored).1 read.1).1 read.2
      refine ⟨visited, or_iff_not_imp_left.2 fun unlisted => ?_⟩
      obtain ⟨entered, unlisted⟩ := below.active.1 ⟨visited, unlisted⟩
      rcases Std.ExtTreeSet.mem_insert.1 entered with same | entered
      · exact NodeId.compare_eq_iff.1 same ▸ .refl
      · exact above v ⟨entered, unlisted⟩ n (List.mem_cons_self ..) inScope
    have step := Extends.entered stored inScope unvisited below
    obtain ⟨inv'', ext⟩ := ihRest inv' fun a ha m hm =>
      above a (step.active.1 ha) m (List.mem_cons_of_mem _ hm)
    exact ⟨inv'', step.cons ext⟩

/-! ## Going on from roots -/

theorem entersOnce (own : g.Owned) :
    (walker scope?).EntersOnce g fun s n => s.visited.contains n := by
  refine ⟨fun stored answer marked => ?_, fun stored _ => ?_, fun answer marked => ?_,
    fun answer marked => ?_, fun marked => marked⟩
  · obtain ⟨-, accepted⟩ := accepts_eq answer
    obtain ⟨-, unvisited⟩ := accepted.1 rfl
    rw [own.node_id stored] at unvisited
    exact unvisited (Std.ExtTreeSet.contains_iff_mem.1 marked)
  · simp [walker, own.node_id stored, Std.ExtTreeSet.contains_insert]
  · obtain ⟨rfl, -⟩ := accepts_eq answer
    exact marked
  · obtain ⟨rfl, -⟩ := accepts_eq answer
    simp [walker, Std.ExtTreeSet.contains_insert, marked]

theorem visit_extend (own : g.Owned) (scope? : Option FuncId) (s : PostOrder) (root : NodeId) :
    g.visit (walker scope?) g.nodeCount root s = some (extend g scope? s root) ∧
      (walker scope?).Walks g none [root] s (extend g scope? s root) := by
  have once : (walker scope?).EntersOnce g fun s n => s.visited.contains n := entersOnce own
  obtain ⟨t, done, walk⟩ := once.exists_visit root s
  rw [extend, done]
  exact ⟨rfl, walk⟩

/-- The state after walks from each of the roots in turn. -/
def after (g : Graph) (scope? : Option FuncId) (roots : List NodeId) : PostOrder :=
  roots.foldl (extend g scope?) {}

theorem after_append (g : Graph) (scope? : Option FuncId) (roots more : List NodeId) :
    after g scope? (roots ++ more) = more.foldl (extend g scope?) (after g scope? roots) :=
  List.foldl_append

/-- Between the walks from two roots everything that has been visited has been left. -/
theorem sound_after (own : g.Owned) (scope? : Option FuncId) (roots : List NodeId) :
    (after g scope? roots).Sound g scope? ∧ Extends g scope? roots {} (after g scope? roots) ∧
      ∀ n, ¬ (after g scope? roots).Active n := by
  obtain ⟨inv, ext⟩ := Sound.walk own
    (.foldl (fun s root => (visit_extend own scope? s root).2) roots {}) (.initial g scope?)
    fun a ha => absurd ha.1 Std.ExtTreeSet.not_mem_empty
  exact ⟨inv, ext, fun n hn => Std.ExtTreeSet.not_mem_empty (ext.active.1 hn).1⟩

/-- A root that has not been visited before comes last. -/
theorem getLast?_extend (own : g.Owned) {root : NodeId} (inScope : g.InScope scope? root)
    (unvisited : root ∉ s.visited) :
    (extend g scope? s root).order.toList.getLast? = some root := by
  have walk := (visit_extend own scope? s root).2
  generalize extend g scope? s root = t at walk ⊢
  cases walk with
  | missing absent _ => exact absurd inScope.contains (Graph.not_contains_iff.2 absent)
  | refused stored answer _ =>
    obtain ⟨rfl, refused⟩ := accepts_eq answer
    rw [own.node_id stored, ← Graph.inScope_iff stored] at refused
    cases refused.2 ⟨inScope, unvisited⟩
  | entered stored _ _ rest =>
    cases rest
    rw [walker, Array.toList_push, List.getLast?_concat, own.node_id stored]

end PostOrder

namespace Graph

/-- The post order after the given roots. -/
def orderBelow (g : Graph) (scope? : Option FuncId) (roots : List NodeId) : List NodeId :=
  (PostOrder.after g scope? roots).order.toList

theorem Owned.orderBelow_grows {g : Graph} (own : g.Owned) (scope? : Option FuncId)
    (roots more : List NodeId) :
    g.orderBelow scope? roots <+: g.orderBelow scope? (roots ++ more) := by
  obtain ⟨inv, -, settled⟩ := PostOrder.sound_after own scope? roots
  rw [orderBelow, orderBelow, PostOrder.after_append]
  exact (PostOrder.Sound.walk own
    (.foldl (fun s root => (PostOrder.visit_extend own scope? s root).2) more _) inv
    fun a ha => absurd ha (settled a)).2.order

/-- A post order lists the nodes below the roots, each of them once and after what it reads as far as
that does not lead back to it. -/
theorem Owned.orderBelow_spec {g : Graph} (own : g.Owned) (scope? : Option FuncId)
    (roots : List NodeId) :
    (g.orderBelow scope? roots).Nodup ∧
    (∀ n, n ∈ g.orderBelow scope? roots ↔ g.BelowWithin scope? roots n) ∧
    ∀ u ∈ g.orderBelow scope? roots, ∀ v, g.ReadsWithin scope? u v →
      v ∈ g.orderBelow scope? roots ∧
      ([v, u].Sublist (g.orderBelow scope? roots) ∨ ReflTransGen (g.ReadsWithin scope?) v u) := by
  obtain ⟨inv, ext, settled⟩ := PostOrder.sound_after own scope? roots
  have left {n : NodeId} (hn : n ∈ (PostOrder.after g scope? roots).visited) :
      n ∈ g.orderBelow scope? roots := by
    by_contra unlisted
    exact settled n ⟨hn, unlisted⟩
  refine ⟨inv.nodup, fun n => ⟨fun hn => ?_, ?_⟩, fun u hu v read => ?_⟩
  · exact (ext.reached (inv.listed hn)).resolve_left Std.ExtTreeSet.not_mem_empty
  · rintro ⟨r, hr, inScope, path⟩
    induction path with
    | refl => exact left (ext.covered hr inScope)
    | tail _ read ih => exact left (inv.ordered ih read).1
  · exact (inv.ordered hu read).imp_left left

theorem postOrders_eq_map (g : Graph) (scope? : Option FuncId) (roots : List NodeId) :
    g.postOrders scope? roots =
      (List.range roots.length).map fun i => g.orderBelow scope? (roots.take (i + 1)) := by
  have go (s : PostOrder) : postOrders.go g scope? s roots = (List.range roots.length).map fun i =>
      ((roots.take (i + 1)).foldl (PostOrder.extend g scope?) s).order.toList := by
    induction roots generalizing s with
    | nil => rfl
    | cons root roots ih =>
      rw [postOrders.go, ih, List.length_cons, List.range_succ_eq_map, List.map_cons, List.map_map]
      rfl
  exact go {}

end Graph

namespace Workspace

/-- Walks of a reachable workspace from several roots in turn end, and each of them extends the post
order of the ones before. It lists exactly the nodes below the roots within the scope, each of them
once, and what a listed node reads within the scope before the node, unless it leads back to it. The
post order of a single stored root ends with it. -/
theorem Reachable.postOrder_exact {w : Workspace} (reach : w.Reachable) (scope? : Option FuncId)
    (roots : List NodeId) :
    (∀ root, w.graph.visit (PostOrder.walker scope?) w.graph.nodeCount root
        (PostOrder.after w.graph scope? roots) =
      some (PostOrder.after w.graph scope? (roots ++ [root]))) ∧
    (∀ root, w.graph.orderBelow scope? roots <+: w.graph.orderBelow scope? (roots ++ [root])) ∧
    (w.graph.orderBelow scope? roots).Nodup ∧
    (∀ n, n ∈ w.graph.orderBelow scope? roots ↔ w.graph.BelowWithin scope? roots n) ∧
    (∀ u ∈ w.graph.orderBelow scope? roots, ∀ v, w.graph.ReadsWithin scope? u v →
      v ∈ w.graph.orderBelow scope? roots ∧
      ([v, u].Sublist (w.graph.orderBelow scope? roots) ∨
        ReflTransGen (w.graph.ReadsWithin scope?) v u) ∧
      ((∀ n, ¬ TransGen w.graph.Reads n n) → [v, u].Sublist (w.graph.orderBelow scope? roots))) ∧
    w.graph.postOrders scope? roots =
      (List.range roots.length).map (fun i => w.graph.orderBelow scope? (roots.take (i + 1))) ∧
    (∀ func ∈ w.graph.funcs,
      w.graph.funcPostOrder func.id = .ok (w.graph.orderBelow (some func.id) func.nodes)) ∧
    ∀ root, w.graph.contains root → (w.graph.postOrder root).Nodup ∧
      (∀ n, n ∈ w.graph.postOrder root ↔ ReflTransGen w.graph.Reads root n) ∧
      (w.graph.postOrder root).getLast? = some root := by
  have own := reach.consistent.coherent.owned
  obtain ⟨nodup, listed, ordered⟩ := own.orderBelow_spec scope? roots
  refine ⟨fun root => ?_, fun root => own.orderBelow_grows scope? roots [root], nodup, listed,
    fun u hu v read => ?_, w.graph.postOrders_eq_map scope? roots, fun func hf => ?_,
    fun root here => ?_⟩
  · rw [PostOrder.after_append, List.foldl_cons, List.foldl_nil]
    exact (PostOrder.visit_extend own scope? _ root).1
  · obtain ⟨hv, before⟩ := ordered u hu v read
    refine ⟨hv, before, fun acyclic => before.resolve_right fun path => acyclic u ?_⟩
    exact TransGen.head' read.1 (ReflTransGen.mono (fun _ _ read => read.1) _ _ path)
  · rw [Graph.funcPostOrder, own.funcOrRefusal_eq_ok_iff.2 ⟨hf, rfl⟩]
    rfl
  · obtain ⟨nodup, listed, -⟩ := own.orderBelow_spec none [root]
    refine ⟨nodup, fun n => (listed n).trans ?_, ?_⟩
    · rw [Graph.BelowWithin, Graph.readsWithin_none]
      simp [Graph.inScope_none_iff, here]
    · exact PostOrder.getLast?_extend own (Graph.inScope_none_iff.2 here)
        Std.ExtTreeSet.not_mem_empty

theorem postOrder_exact_tangle :
    (empty.run tangle).Reachable ∧ (empty.run tangle).graph.contains ⟨1⟩ ∧
      (empty.run tangle).graph.orderBelow none [⟨1⟩, ⟨9⟩] = [⟨3⟩, ⟨0⟩, ⟨1⟩] ∧
      [⟨3⟩, ⟨0⟩, ⟨1⟩] <+: (empty.run tangle).graph.orderBelow none [⟨1⟩, ⟨9⟩, ⟨2⟩] ∧
      ((empty.run tangle).graph.postOrder ⟨1⟩).getLast? = some ⟨1⟩ := by
  obtain ⟨-, grows, -, -, -, -, -, single⟩ :=
    Reachable.postOrder_exact reachable_tangle none [⟨1⟩, ⟨9⟩]
  have here : (empty.run tangle).graph.contains ⟨1⟩ := by decide
  have order : (empty.run tangle).graph.orderBelow none [⟨1⟩, ⟨9⟩] = [⟨3⟩, ⟨0⟩, ⟨1⟩] := by decide
  exact ⟨reachable_tangle, here, order, order ▸ grows ⟨2⟩, (single ⟨1⟩ here).2.2⟩

end Workspace

end Dataflow
