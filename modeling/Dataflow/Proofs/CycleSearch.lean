import Dataflow.Proofs.Ownership
import Dataflow.Proofs.RecursiveWalk
import Dataflow.Walk.Cycle
import Mathlib.Logic.Relation

/-!
# Cycle search

A search goes through states that are `CycleSearch.Sound`: what a left node reads is left or closes a
cycle, every closing node does lie on a cycle, and no cycle among the left nodes avoids the closing
ones. The last part is stated as accessibility, so that it is local to each node and survives when
more closing nodes are found. A search from some roots leaves exactly the nodes below them, so it
finds closing nodes exactly when there is a cycle below the roots (`Owned.closingNodes_eq_nil_iff`).
-/

namespace Dataflow

open Relation

namespace Graph

/-- The operand edges: a slot of `u` reads a value of the stored node `p`. -/
def Reads (g : Graph) (u p : NodeId) : Prop :=
  (∃ s v, g.reads? u s = some v ∧ v.node? = some p) ∧ g.contains p

theorem Reads.source {g : Graph} {u p : NodeId} (h : g.Reads u p) :
    ∃ node, g.node? u = some node := by
  obtain ⟨⟨s, v, read, -⟩, -⟩ := h
  obtain ⟨o, held, -⟩ := Option.map_eq_some_iff.1 read
  obtain ⟨node, stored, -⟩ := Graph.operand?_eq_some_iff.1 held
  exact ⟨node, stored⟩

theorem reads?_iff_of_stored {g : Graph} {u : NodeId} {node : Node} (stored : g.node? u = some node)
    {s : Slot} {v : Value} :
    g.reads? u s = some v ↔ ∃ o, node.operand? s = some o ∧ o.value = v := by
  rw [reads?, operand?, stored, Option.bind_some, Option.map_eq_some_iff]

theorem mem_operandNodes {g : Graph} {u p : NodeId} {node : Node} (stored : g.node? u = some node) :
    p ∈ node.operandNodes ↔ ∃ s v, g.reads? u s = some v ∧ v.node? = some p := by
  simp only [Node.operandNodes, List.mem_filterMap, Prod.exists, Node.mem_operands,
    reads?_iff_of_stored stored]
  constructor
  · rintro ⟨s, v, ⟨-, held⟩, hp⟩
    exact ⟨s, v, held, hp⟩
  · rintro ⟨s, v, held, hp⟩
    refine ⟨s, v, ⟨?_, held⟩, hp⟩
    rintro rfl
    cases hp

theorem reads_iff {g : Graph} {u p : NodeId} {node : Node} (stored : g.node? u = some node) :
    g.Reads u p ↔ p ∈ node.operandNodes ∧ g.contains p := by
  rw [Reads, mem_operandNodes stored]

end Graph

/-- From an accessible element no path leads back to it. -/
theorem not_transGen_of_acc {α : Type} {r : α → α → Prop} {a : α} (acc : Acc (fun b a => r a b) a) :
    ¬ TransGen r a a := by
  induction acc with
  | intro a _ ih =>
    intro cycle
    obtain ⟨b, first, rest⟩ := TransGen.head'_iff.1 cycle
    exact ih b first (TransGen.tail' rest first)

namespace CycleSearch

/-! ## Sound states -/

/-- The state of a search that has done nothing wrong so far. -/
structure Sound (g : Graph) (s : CycleSearch) : Prop where
  seen : ∀ {c}, c ∈ s.closing → c ∈ s.active ∨ c ∈ s.done
  disjoint : ∀ {n}, n ∈ s.active → n ∉ s.done
  closed : ∀ {d e}, d ∈ s.done → g.Reads d e → e ∈ s.done ∨ e ∈ s.closing
  broken : ∀ {d}, d ∈ s.done → Acc (fun e d => g.Reads d e ∧ e ∉ s.closing) d
  cyclic : ∀ {c}, c ∈ s.closing → TransGen g.Reads c c
  nodup : s.closing.toList.Nodup

/-- What a walk from the nodes `ns` does to the state of a search. -/
structure Extends (g : Graph) (ns : List NodeId) (s t : CycleSearch) : Prop where
  active : ∀ {n}, n ∈ t.active ↔ n ∈ s.active
  done : ∀ {n}, n ∈ s.done → n ∈ t.done
  closing : ∀ {n}, n ∈ s.closing → n ∈ t.closing
  covered : ∀ {n}, n ∈ ns → g.contains n → n ∈ t.done ∨ n ∈ t.closing
  reached : ∀ {d}, d ∈ t.done → d ∈ s.done ∨ ∃ n ∈ ns, g.contains n ∧ ReflTransGen g.Reads n d

theorem Sound.initial (g : Graph) : Sound g {} where
  seen h := absurd h (Array.not_mem_empty _)
  disjoint h := absurd h Std.ExtTreeSet.not_mem_empty
  closed h := absurd h Std.ExtTreeSet.not_mem_empty
  broken h := absurd h Std.ExtTreeSet.not_mem_empty
  cyclic h := absurd h (Array.not_mem_empty _)
  nodup := List.nodup_nil

theorem mem_close {s : CycleSearch} {n c : NodeId} :
    c ∈ (s.close n).closing ↔ c ∈ s.closing ∨ c = n := by
  unfold close
  split_ifs with listed
  · rw [Array.contains_iff_mem] at listed
    exact ⟨.inl, Or.rec id fun h => h ▸ listed⟩
  · exact Array.mem_push

theorem active_close (s : CycleSearch) (n : NodeId) : (s.close n).active = s.active := by
  unfold close
  split_ifs <;> rfl

theorem done_close (s : CycleSearch) (n : NodeId) : (s.close n).done = s.done := by
  unfold close
  split_ifs <;> rfl

/-- An active node that is met again closes a cycle. -/
theorem Sound.close {g : Graph} {s : CycleSearch} (inv : s.Sound g) {n : NodeId}
    (active : n ∈ s.active) (cycle : TransGen g.Reads n n) : (s.close n).Sound g := by
  refine ⟨fun {c} hc => ?_, fun {m} hm => ?_, fun {d e} hd read => ?_, fun {d} hd => ?_,
    fun {c} hc => ?_, ?_⟩
  · rw [active_close, done_close]
    rcases mem_close.1 hc with hc | rfl
    · exact inv.seen hc
    · exact .inl active
  · rw [active_close] at hm
    rw [done_close]
    exact inv.disjoint hm
  · rw [done_close] at hd ⊢
    exact (inv.closed hd read).imp_right fun he => mem_close.2 (.inl he)
  · rw [done_close] at hd
    exact Subrelation.accessible (fun h => ⟨h.1, fun he => h.2 (mem_close.2 (.inl he))⟩)
      (inv.broken hd)
  · rcases mem_close.1 hc with hc | rfl
    · exact inv.cyclic hc
    · exact cycle
  · unfold CycleSearch.close
    split_ifs with listed
    · exact inv.nodup
    · rw [Array.toList_push, List.nodup_append]
      refine ⟨inv.nodup, List.nodup_singleton n, fun a ha b hb => ?_⟩
      obtain rfl := List.mem_singleton.1 hb
      rintro rfl
      exact listed (Array.contains_iff_mem.2 (Array.mem_toList_iff.1 ha))

theorem Sound.enter {g : Graph} {s : CycleSearch} (inv : s.Sound g) {n : NodeId}
    (undone : n ∉ s.done) : { s with active := s.active.insert n }.Sound g := by
  refine ⟨fun {c} hc => ?_, fun {m} hm => ?_, inv.closed, inv.broken, inv.cyclic, inv.nodup⟩
  · exact (inv.seen hc).imp_left fun h => Std.ExtTreeSet.mem_insert.2 (.inr h)
  · rcases Std.ExtTreeSet.mem_insert.1 hm with same | hm
    · exact NodeId.compare_eq_iff.1 same ▸ undone
    · exact inv.disjoint hm

/-- A node is left when all that it reads is left or closes a cycle. -/
theorem Sound.leave {g : Graph} {s : CycleSearch} (inv : s.Sound g) {n : NodeId}
    (covered : ∀ e, g.Reads n e → e ∈ s.done ∨ e ∈ s.closing) :
    { s with active := s.active.erase n, done := s.done.insert n }.Sound g := by
  refine ⟨fun {c} hc => ?_, fun {m} hm hd => ?_, fun {d e} hd read => ?_, fun {d} hd => ?_, inv.cyclic,
    inv.nodup⟩
  · rcases inv.seen hc with hc | hc
    · by_cases same : n = c
      · exact .inr (Std.ExtTreeSet.mem_insert.2 (.inl (NodeId.compare_eq_iff.2 same)))
      · exact .inl (Std.ExtTreeSet.mem_erase.2 ⟨fun h => same (NodeId.compare_eq_iff.1 h), hc⟩)
    · exact .inr (Std.ExtTreeSet.mem_insert.2 (.inr hc))
  · obtain ⟨ne, hm⟩ := Std.ExtTreeSet.mem_erase.1 hm
    rcases Std.ExtTreeSet.mem_insert.1 hd with same | hd
    · exact ne same
    · exact inv.disjoint hm hd
  · rw [Std.ExtTreeSet.mem_insert, NodeId.compare_eq_iff] at hd ⊢
    rcases hd with rfl | hd
    · exact (covered e read).imp_left .inr
    · exact (inv.closed hd read).imp_left .inr
  · rcases Std.ExtTreeSet.mem_insert.1 hd with same | hd
    · obtain rfl := NodeId.compare_eq_iff.1 same
      refine ⟨_, fun e he => ?_⟩
      rcases covered e he.1 with left | closing
      · exact inv.broken left
      · exact absurd closing he.2
    · exact inv.broken hd

/-! ## Walking -/

theorem accepts_eq_true {p? : Option Node} {n : Node} {s s' : CycleSearch}
    (answer : walker.accepts p? n s = (true, s')) :
    n.id ∉ s.active ∧ n.id ∉ s.done ∧ s' = s := by
  simp only [walker] at answer
  split_ifs at answer with active
  · rw [Prod.mk.injEq] at answer
    cases answer.1
  · rw [Prod.mk.injEq, Bool.not_eq_true'] at answer
    refine ⟨fun h => active (Std.ExtTreeSet.contains_iff_mem.2 h), fun h => ?_, answer.2.symm⟩
    exact Bool.false_ne_true (answer.1.symm.trans (Std.ExtTreeSet.contains_iff_mem.2 h))

theorem accepts_eq_false {p? : Option Node} {n : Node} {s s' : CycleSearch}
    (answer : walker.accepts p? n s = (false, s')) :
    n.id ∈ s.active ∧ s' = s.close n.id ∨ n.id ∈ s.done ∧ s' = s := by
  simp only [walker] at answer
  split_ifs at answer with active
  · rw [Prod.mk.injEq] at answer
    exact .inl ⟨Std.ExtTreeSet.contains_iff_mem.1 active, answer.2.symm⟩
  · rw [Prod.mk.injEq, Bool.not_eq_false'] at answer
    exact .inr ⟨Std.ExtTreeSet.contains_iff_mem.1 answer.1, answer.2.symm⟩

theorem Extends.nil {g : Graph} (s : CycleSearch) : Extends g [] s s where
  active := Iff.rfl
  done := id
  closing := id
  covered h := absurd h List.not_mem_nil
  reached := .inl

theorem Extends.cons {g : Graph} {n : NodeId} {ns : List NodeId} {s t u : CycleSearch}
    (first : Extends g [n] s t) (rest : Extends g ns t u) : Extends g (n :: ns) s u := by
  refine ⟨rest.active.trans first.active, rest.done ∘ first.done, rest.closing ∘ first.closing,
    fun {m} hm stored => ?_, fun {d} hd => ?_⟩
  · rcases List.mem_cons.1 hm with rfl | hm
    · exact (first.covered (List.mem_singleton_self _) stored).imp rest.done rest.closing
    · exact rest.covered hm stored
  · rcases rest.reached hd with hd | ⟨m, hm, path⟩
    · rcases first.reached hd with hd | ⟨m, hm, path⟩
      · exact .inl hd
      · obtain rfl := List.mem_singleton.1 hm
        exact .inr ⟨_, List.mem_cons_self .., path⟩
    · exact .inr ⟨m, List.mem_cons_of_mem _ hm, path⟩

theorem Extends.missing {g : Graph} {n : NodeId} (absent : g.node? n = none) (s : CycleSearch) :
    Extends g [n] s s where
  active := Iff.rfl
  done := id
  closing := id
  covered hm stored := by
    obtain rfl := List.mem_singleton.1 hm
    exact absurd stored (Graph.not_contains_iff.2 absent)
  reached := .inl

theorem Extends.close {g : Graph} (s : CycleSearch) (n : NodeId) : Extends g [n] s (s.close n) where
  active := by rw [active_close]
  done h := by rwa [done_close]
  closing h := mem_close.2 (.inl h)
  covered hm _ := .inr (mem_close.2 (.inr (List.mem_singleton.1 hm)))
  reached h := .inl (by rwa [done_close] at h)

theorem Extends.left {g : Graph} {s : CycleSearch} {n : NodeId} (left : n ∈ s.done) :
    Extends g [n] s s where
  active := Iff.rfl
  done := id
  closing := id
  covered hm _ := .inl (List.mem_singleton.1 hm ▸ left)
  reached := .inl

theorem Extends.entered {g : Graph} {n : NodeId} {node : Node} (stored : g.node? n = some node)
    {s t : CycleSearch} (inactive : n ∉ s.active)
    (below : Extends g node.operandNodes { s with active := s.active.insert n } t) :
    Extends g [n] s { t with active := t.active.erase n, done := t.done.insert n } := by
  refine ⟨fun {m} => ?_, fun h => Std.ExtTreeSet.mem_insert.2 (.inr (below.done h)), below.closing,
    fun {m} hm _ => ?_, fun {d} hd => ?_⟩
  · rw [Std.ExtTreeSet.mem_erase, below.active, Std.ExtTreeSet.mem_insert]
    constructor
    · rintro ⟨ne, same | hm⟩
      · exact absurd same ne
      · exact hm
    · exact fun hm => ⟨fun same => inactive (NodeId.compare_eq_iff.1 same ▸ hm), .inr hm⟩
  · obtain rfl := List.mem_singleton.1 hm
    exact .inl (Std.ExtTreeSet.mem_insert.2 (.inl (NodeId.compare_eq_iff.2 rfl)))
  · have here := Graph.contains_of_node? stored
    rcases Std.ExtTreeSet.mem_insert.1 hd with same | hd
    · obtain rfl := NodeId.compare_eq_iff.1 same
      exact .inr ⟨_, List.mem_singleton_self _, here, .refl⟩
    · rcases below.reached hd with hd | ⟨e, he, stored', path⟩
      · exact .inl hd
      · have read : g.Reads n e := (Graph.reads_iff stored).2 ⟨he, stored'⟩
        exact .inr ⟨n, List.mem_singleton_self n, here, .head read path⟩

/-- A walk below the active nodes leaves a sound state. -/
theorem Sound.walk {g : Graph} (own : g.Owned) {parent? : Option NodeId} {ns : List NodeId}
    {s t : CycleSearch} (walk : walker.Walks g parent? ns s t) (inv : s.Sound g)
    (above : ∀ a ∈ s.active, ∀ n ∈ ns, g.contains n → TransGen g.Reads a n) :
    t.Sound g ∧ Extends g ns s t := by
  induction walk with
  | nil => exact ⟨inv, .nil _⟩
  | missing absent _ ih =>
    obtain ⟨inv', ext⟩ := ih inv fun a ha n hn => above a ha n (List.mem_cons_of_mem _ hn)
    exact ⟨inv', (Extends.missing absent _).cons ext⟩
  | refused stored answer _ ih =>
    have id := own.node_id stored
    have here := Graph.contains_of_node? stored
    rcases accepts_eq_false answer with ⟨active, rfl⟩ | ⟨left, rfl⟩
    · rw [id] at active ih
      have cycle := above _ active _ (List.mem_cons_self ..) here
      obtain ⟨inv', ext⟩ := ih (inv.close active cycle) fun a ha n hn =>
        above a (by rwa [active_close] at ha) n (List.mem_cons_of_mem _ hn)
      exact ⟨inv', (Extends.close _ _).cons ext⟩
    · rw [id] at left
      obtain ⟨inv', ext⟩ := ih inv fun a ha n hn => above a ha n (List.mem_cons_of_mem _ hn)
      exact ⟨inv', (Extends.left left).cons ext⟩
  | entered stored answer _ _ ihBelow ihRest =>
    have id := own.node_id stored
    have here := Graph.contains_of_node? stored
    obtain ⟨inactive, undone, rfl⟩ := accepts_eq_true answer
    simp only [walker, id] at inactive undone ihBelow ihRest
    obtain ⟨inv', below⟩ := ihBelow (inv.enter undone) fun a ha e he stored' => by
      have read := (Graph.reads_iff stored).2 ⟨he, stored'⟩
      rcases Std.ExtTreeSet.mem_insert.1 ha with same | ha
      · exact NodeId.compare_eq_iff.1 same ▸ .single read
      · exact (above a ha _ (List.mem_cons_self ..) here).tail read
    have step := Extends.entered stored inactive below
    have inv' := inv'.leave fun e read =>
      below.covered ((Graph.reads_iff stored).1 read).1 read.2
    obtain ⟨inv'', ext⟩ := ihRest inv' fun a ha n hn =>
      above a (step.active.1 ha) n (List.mem_cons_of_mem _ hn)
    exact ⟨inv'', step.cons ext⟩

/-! ## Searching from roots -/

/-- A search enters neither the active nodes nor those it has left. -/
theorem entersOnce {g : Graph} (ids : ∀ {n node}, g.node? n = some node → node.id = n) :
    walker.EntersOnce g fun s n => s.active.contains n || s.done.contains n := by
  refine ⟨fun stored answer marked => ?_, fun stored _ => ?_, fun {_ _ s s' m} answer marked => ?_,
    fun answer marked => ?_, fun {_ node s m} marked => ?_⟩
  · obtain ⟨inactive, undone, -⟩ := accepts_eq_true answer
    rw [ids stored] at inactive undone
    simp only [Bool.or_eq_true, Std.ExtTreeSet.contains_iff_mem] at marked
    exact marked.elim inactive undone
  · simp [walker, ids stored, Std.ExtTreeSet.contains_insert]
  · rcases accepts_eq_false answer with ⟨-, rfl⟩ | ⟨-, rfl⟩
    · rwa [active_close, done_close]
    · exact marked
  · obtain ⟨-, -, rfl⟩ := accepts_eq_true answer
    simp only [walker, Bool.or_eq_true, Std.ExtTreeSet.contains_iff_mem,
      Std.ExtTreeSet.mem_insert] at marked ⊢
    exact marked.imp_left .inr
  · simp only [walker, Bool.or_eq_true, Std.ExtTreeSet.contains_iff_mem,
      Std.ExtTreeSet.mem_insert, Std.ExtTreeSet.mem_erase] at marked ⊢
    by_cases same : compare node.id m = .eq
    · exact .inr (.inl same)
    · exact marked.imp (fun h => ⟨same, h⟩) .inr

/-- The bound of a search is enough: going on from a root is walking from it. -/
theorem visit_extend {g : Graph} (ids : ∀ {n node}, g.node? n = some node → node.id = n)
    (s : CycleSearch) (root : NodeId) :
    g.visit walker g.nodeCount root s = some (extend g s root) ∧
      walker.Walks g none [root] s (extend g s root) := by
  obtain ⟨t, done, walk⟩ := (entersOnce ids).exists_visit root s
  rw [extend, done]
  exact ⟨rfl, walk⟩

end CycleSearch

namespace Graph

/-- The nodes from which a search starts, and all nodes below them. -/
def Below (g : Graph) (roots : List NodeId) (n : NodeId) : Prop :=
  ∃ r ∈ roots, g.contains r ∧ ReflTransGen g.Reads r n

/-- What a search finds: closing nodes below the roots, each of them once and on a cycle, that meet
every cycle below the roots. -/
theorem Owned.closingNodes_spec {g : Graph} (own : g.Owned) (roots : List NodeId) :
    (g.closingNodes roots).Nodup ∧
    (∀ c ∈ g.closingNodes roots, g.Below roots c ∧ TransGen g.Reads c c) ∧
    ∀ n, g.Below roots n → ¬ TransGen (fun u p => g.Reads u p ∧ p ∉ g.closingNodes roots) n n := by
  have walk : CycleSearch.walker.Walks g none roots {} (roots.foldl (CycleSearch.extend g) {}) :=
    .foldl (fun s root => (CycleSearch.visit_extend own.node_id s root).2) roots {}
  -- at the start no node is active, so there is none that the roots have to lie below
  obtain ⟨inv, ext⟩ := CycleSearch.Sound.walk own walk (.initial g) fun a ha =>
    absurd ha Std.ExtTreeSet.not_mem_empty
  have closing : g.closingNodes roots = (roots.foldl (CycleSearch.extend g) {}).closing.toList := rfl
  rw [closing]
  generalize roots.foldl (CycleSearch.extend g) {} = t at inv ext
  have inactive : ∀ n, n ∉ t.active := fun n hn => Std.ExtTreeSet.not_mem_empty (ext.active.1 hn)
  have closed {c : NodeId} (hc : c ∈ t.closing) : c ∈ t.done :=
    (inv.seen hc).resolve_left (inactive c)
  have below : ∀ n, g.Below roots n → n ∈ t.done := by
    rintro n ⟨r, hr, stored, path⟩
    have start : r ∈ t.done := (ext.covered hr stored).elim id closed
    induction path with
    | refl => exact start
    | tail _ read ih => exact (inv.closed ih read).elim id closed
  refine ⟨inv.nodup, fun c hc => ?_, fun n hn => ?_⟩
  · rw [Array.mem_toList_iff] at hc
    refine ⟨?_, inv.cyclic hc⟩
    exact (ext.reached (closed hc)).resolve_left Std.ExtTreeSet.not_mem_empty
  · simp only [Array.mem_toList_iff]
    exact not_transGen_of_acc (inv.broken (below n hn))

/-- A search finds nothing exactly if there is no cycle below the roots. -/
theorem Owned.closingNodes_eq_nil_iff {g : Graph} (own : g.Owned) (roots : List NodeId) :
    g.closingNodes roots = [] ↔ ∀ n, g.Below roots n → ¬ TransGen g.Reads n n := by
  obtain ⟨-, cyclic, broken⟩ := own.closingNodes_spec roots
  constructor
  · intro none n hn cycle
    rw [none] at broken
    exact broken n hn (TransGen.mono (fun _ _ read => ⟨read, List.not_mem_nil⟩) _ _ cycle)
  · intro acyclic
    rw [List.eq_nil_iff_forall_not_mem]
    exact fun c hc => acyclic c (cyclic c hc).1 (cyclic c hc).2

/-- A search from all stored nodes decides whether a graph is acyclic. -/
theorem Owned.acyclic_iff {g : Graph} (own : g.Owned) :
    g.closingNodes g.nodes.keys = [] ↔ ∀ n, ¬ TransGen g.Reads n n := by
  rw [own.closingNodes_eq_nil_iff]
  refine ⟨fun acyclic n cycle => ?_, fun acyclic n _ => acyclic n⟩
  obtain ⟨p, read, -⟩ := TransGen.head'_iff.1 cycle
  obtain ⟨node, stored⟩ := read.source
  have here := contains_of_node? stored
  exact acyclic n ⟨n, Std.ExtTreeMap.mem_keys.2 here, here, .refl⟩ cycle

end Graph

end Dataflow
