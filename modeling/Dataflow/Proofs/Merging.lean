import Dataflow.Proofs.Handover
import Dataflow.Proofs.StructuralEquality

/-!
# Merging equal nodes

Of two structurally equal nodes of a well-formed graph one can take over the uses of the other, which
can then be erased. Nodes that keep to the limit of results are equal only if they have the same key.
So both have the same results, the replacement reaches its end, and what every slot reads keeps its
type. Both read the same, so a path from the node that stays to a reader of the other would have been
a cycle through that one before (`WellFormed.merge`). The duplicate is unread in the end, and leaving
out an unread node touches no other (`WellFormed.discard`).
-/

namespace Dataflow

open Relation

/-- The same result of `new` in place of a result of `old`. -/
def Value.rename (old new : NodeId) : Value → Value
  | null => null
  | result n i => result (if n = old then new else n) i

theorem Value.rename_eq_ite (old new : NodeId) (v : Value) :
    v.rename old new = if v.node? = some old then .result new v.index else v := by
  cases v with
  | null => rfl
  | result n i => by_cases hn : n = old <;> simp [rename, node?, index, hn]

namespace Graph

/-- Every connected slot of a well-formed node reads an existing result. -/
theorem WellFormedNode.hasResult {g : Graph} {n : Node} (formed : g.WellFormedNode n) {s : Slot}
    {o : Operand} (held : n.operand? s = some o) (ne : o.value ≠ .null) : g.HasResult o.value := by
  cases s with
  | predicate =>
    obtain rfl := Option.some.inj held
    obtain ⟨t, ⟨p, i, producer, result, found, typed⟩, -⟩ := formed.predicate.resolve_left ne
    obtain ⟨hi, -⟩ := List.getElem?_eq_some_iff.1 typed
    exact ⟨p, i, producer, result, found, hi⟩
  | input i => exact formed.inputs _ (List.mem_map_of_mem (List.mem_of_getElem? held))

/-- In a well-formed graph every connected slot reads an existing result. -/
theorem WellFormed.hasResult {g : Graph} (formed : g.WellFormed) {x : NodeId} {s : Slot} {v : Value}
    (read : g.reads? x s = some v) (ne : v ≠ .null) : g.HasResult v := by
  obtain ⟨o, held, rfl⟩ := Option.map_eq_some_iff.1 read
  obtain ⟨node, stored, held⟩ := operand?_eq_some_iff.1 held
  exact (formed.node stored).hasResult held ne

/-! ## Leaving out an unread node -/

section Unread

variable {g h : Graph} {n : NodeId}

/-- Detaching and discarding an unread node leaves the operands of all others as they are. -/
theorem Detached.operand?_discard (d : g.Detached n h)
    (unread : ∀ x s v, g.reads? x s = some v → v.node? ≠ some n) (f : FuncId) {x : NodeId}
    (ne : x ≠ n) (s : Slot) : (h.discard f n).operand? x s = g.operand? x s := by
  rw [Graph.operand?_discard, if_neg ne.symm]
  exact d.operand x s ne (unread x s)

/-- A well-formed graph stays well formed without a node that nothing reads. -/
theorem WellFormed.discard (formed : g.WellFormed) (d : g.Detached n h)
    (unread : ∀ x s v, g.reads? x s = some v → v.node? ≠ some n) (f : FuncId) :
    (h.discard f n).WellFormed := by
  have node? {m : NodeId} (ne : m ≠ n) : (h.discard f n).node? m = h.node? m := by
    rw [node?_discard, if_neg ne.symm]
  have kept {m : NodeId} {node : Node} (stored : (h.discard f n).node? m = some node) : m ≠ n := by
    rintro rfl
    rw [node?_discard, if_pos rfl] at stored
    cases stored
  have reads {m : NodeId} (ne : m ≠ n) (s : Slot) :
      (h.discard f n).reads? m s = g.reads? m s := by
    rw [reads?, d.operand?_discard unread f ne, reads?]
  refine ⟨fun {m new} after => ?_,
    fun m cycle => formed.acyclic m (TransGen.mono (fun u p edge => ?_) m m cycle)⟩
  · have ne := kept after
    rw [node? ne] at after
    obtain ⟨old, before, same⟩ := d.rewired.exists_node after
    have unchanged : ∀ s, (h.discard f n).reads? m s = (g.reads? m s).map id := fun s => by
      rw [reads ne, Option.map_id_fun, id_eq]
    refine (formed.node before).transfer before ((node? ne).trans after) same unchanged rfl
      (fun s v read hv => ?_) fun s v read => ?_
    · obtain ⟨p, i, producer, rfl, stored, hi⟩ := d.rewired.keepsResults.hasResult hv
      refine ⟨p, i, producer, rfl, (node? ?_).trans stored, hi⟩
      rintro rfl
      exact unread m s _ read rfl
    · have unread' : v.node? ≠ some n := unread m s v read
      rw [id_eq, ← d.rewired.readType?]
      cases v with
      | null => rfl
      | result p i =>
        have ne' : p ≠ n := fun hp => unread' (congrArg some hp)
        simp only [readType?, Value.node?, Option.bind_some, node? ne']
  · obtain ⟨⟨s, v, read, hp⟩, stored⟩ := edge
    obtain ⟨node, here⟩ := Reads.source ⟨⟨s, v, read, hp⟩, stored⟩
    rw [reads (kept here)] at read
    obtain ⟨producer, found⟩ := contains_iff.1 stored
    rw [node? (kept found)] at found
    exact ⟨⟨s, v, read, hp⟩, (d.rewired.contains p).symm.trans (contains_of_node? found)⟩

end Unread

/-! ## Merging -/

section Merge

variable {g h : Graph} {a b : NodeId} {na nb : Node}

/-- In a well-formed graph no path leads from a node to a reader of another one with the same key. -/
theorem WellFormed.apart_of_key (formed : g.WellFormed) (sa : g.node? a = some na)
    (sb : g.node? b = some nb) (same : na.key = nb.key) {u : NodeId} (reader : g.Reads u b) :
    ¬ ReflTransGen g.Reads a u := by
  intro path
  obtain ⟨c, ⟨⟨s, v, read, hc⟩, stored⟩, rest⟩ := TransGen.head'_iff.1 (TransGen.tail' path reader)
  -- the first edge leaves from the other node just as well
  rw [reads?_of_key sa sb same] at read
  exact formed.acyclic b (TransGen.head' ⟨⟨s, v, read, hc⟩, stored⟩ rest)

/-- All records of a node have a counterpart among the results of another one with the same key. -/
theorem WellFormed.index_lt_of_key (formed : g.WellFormed) (sym : g.Symmetric)
    (sb : g.node? b = some nb) (same : na.key = nb.key) {u : Use} (hu : u ∈ g.allUses b) :
    u.value.index < na.results.length := by
  obtain ⟨read, hp⟩ := sym.mem_allUses.1 hu
  obtain ⟨p, i, producer, value, stored, hi⟩ := formed.hasResult read (Value.ne_null_of_node? hp)
  rw [value] at hp ⊢
  obtain rfl := Option.some.inj hp
  obtain rfl := Option.some.inj (sb.symm.trans stored)
  rwa [(Node.key_eq_iff.1 same).2.1]

/-- A node that is replaced by another one with the same key hands over all of its records. -/
theorem WellFormed.redirected_replaceNode (formed : g.WellFormed) (sym : g.Symmetric)
    (sa : g.node? a = some na) (sb : g.node? b = some nb) (ne : b ≠ a) (same : na.key = nb.key) :
    ∃ h, g.replaceNode b a = (h, .ok (g.allUses b).length) ∧
      g.Redirected b (g.allUses b) (fun u => .result a u.value.index) h := by
  have all : g.allUses b = g.allUses b ++ [] := (List.append_nil _).symm
  refine ⟨_, sym.replaceNode_eq (contains_of_node? sb) sa ne all (fun u hu => ?_) (by simp),
    sym.redirected_handed (contains_of_node? sa) ne all⟩
  exact formed.index_lt_of_key sym sb same hu

theorem Redirected.reads?_rename
    (r : g.Redirected b (g.allUses b) (fun u => .result a u.value.index) h) (sym : g.Symmetric)
    (x : NodeId) (s : Slot) : h.reads? x s = (g.reads? x s).map (·.rename b a) := by
  simp only [r.reads?_of_all (f := fun v => .result a v.index) sym, Value.rename_eq_ite]

/-- A well-formed graph stays well formed when a node takes over all uses of another one with the same
key. -/
theorem WellFormed.merge (formed : g.WellFormed) (sa : g.node? a = some na) (sb : g.node? b = some nb)
    (same : na.key = nb.key) (r : g.Rewired h)
    (reads : ∀ x s, h.reads? x s = (g.reads? x s).map (·.rename b a)) : h.WellFormed := by
  have results := (Node.key_eq_iff.1 same).2.1
  refine ⟨fun {n new} after => ?_, ?_⟩
  · obtain ⟨old, before, -⟩ := r.exists_node after
    refine r.wellFormedNode reads rfl (fun v hv => ?_) (fun v => ?_) before after (formed.node before)
    · obtain ⟨p, i, producer, rfl, stored, hi⟩ := hv
      by_cases hp : p = b
      · subst hp
        obtain rfl := Option.some.inj (sb.symm.trans stored)
        exact ⟨a, i, na, by simp [Value.rename], sa, results ▸ hi⟩
      · exact ⟨p, i, producer, by simp [Value.rename, hp], stored, hi⟩
    · cases v with
      | null => rfl
      | result p i =>
        by_cases hp : p = b
        · simp [readType?, Value.rename, Value.node?, Value.index, hp, sa, sb, results]
        · simp [Value.rename, hp]
  · refine @acyclic_of_apart NodeId g.Reads h.Reads a (fun u => g.Reads u b) (fun u q edge => ?_)
      (fun u reader => formed.apart_of_key sa sb same reader) formed.acyclic
    obtain ⟨⟨s, w, read, hq⟩, stored⟩ := edge
    rw [reads, Option.map_eq_some_iff] at read
    obtain ⟨v, read, rfl⟩ := read
    rw [Value.rename_eq_ite] at hq
    split_ifs at hq with hv
    · exact .inr ⟨⟨⟨s, v, read, hv⟩, contains_of_node? sb⟩, (Option.some.inj hq).symm⟩
    · exact .inl ⟨⟨s, v, read, hq⟩, (r.contains q).symm.trans stored⟩

end Merge

end Graph

namespace Workspace

/-- In a verified reachable workspace a duplicate can be merged into a structurally equal node: the
replacement hands over every use of the duplicate, erasing it then leaves the operands of all other
nodes as they are, and all functions are verified after both edits. -/
theorem Reachable.merge_verified {w : Workspace} (reach : w.Reachable)
    (verified : ∀ func ∈ w.graph.funcs, w.graph.funcSound func.id = true) {a b : NodeId}
    {na nb : Node} (sa : w.graph.node? a = some na) (sb : w.graph.node? b = some nb) (ne : a ≠ b)
    (equal : na.isEqual nb = true) :
    ∃ h f k, w.graph.replaceNode b a = (h, .ok (w.graph.allUses b).length) ∧
      (∀ x s, h.reads? x s = (w.graph.reads? x s).map (·.rename b a)) ∧
      h.allUses b = [] ∧
      (∀ func ∈ h.funcs, h.funcSound func.id = true) ∧
      nb.parent? = some f ∧ h.eraseNode f b = (k, .ok ()) ∧
      (∀ x s, x ≠ b → k.operand? x s = h.operand? x s) ∧
      ∀ func ∈ k.funcs, k.funcSound func.id = true := by
  have co := reach.consistent.coherent
  have sym := co.symmetric
  have formed := co.funcSound_iff_wellFormed.1 verified
  have limited := reach.limited.graph
  have same : na.key = nb.key :=
    ((limited a na sa).2.isEqual_iff_key (limited b nb sb).2).1 equal
  -- every use is handed over
  obtain ⟨h, replaced, redirected⟩ := formed.redirected_replaceNode sym sa sb ne.symm same
  have evolves := co.replaceNode b a
  rw [replaced] at evolves
  have co' : h.Coherent := evolves.coherent
  have reads := redirected.reads?_rename sym
  have unused := redirected.allUses_source sym (List.append_nil _).symm fun u _ back =>
    ne (Option.some.inj back)
  have formed' := formed.merge sa sb same redirected.rewired reads
  -- from now on nothing reads the duplicate, so it can be left out
  have unread := co'.symmetric.unread_of_allUses_eq_nil unused
  obtain ⟨f, parent, listed⟩ := co.owned.owner sb
  obtain ⟨k, erased, d⟩ := co'.exists_detached ((redirected.rewired.lists f b).2 listed)
  have evolves' := co'.eraseNode_evolves f b
  rw [erased] at evolves'
  exact ⟨h, f, k.discard f b, replaced, reads, unused, co'.funcSound_iff_wellFormed.2 formed',
    parent, erased, fun x s other => d.operand?_discard unread f other s,
    evolves'.coherent.funcSound_iff_wellFormed.2 (formed'.discard d unread f)⟩

theorem merge_verified_diamond :
    (∀ func ∈ (empty.run diamond).graph.funcs,
      (empty.run diamond).graph.funcSound func.id = true) ∧
    ∃ na nb h k, (empty.run diamond).graph.node? ⟨2⟩ = some na ∧
      (empty.run diamond).graph.node? ⟨1⟩ = some nb ∧ na.isEqual nb = true ∧
      (empty.run diamond).graph.replaceNode ⟨1⟩ ⟨2⟩ = (h, .ok 2) ∧
      h.eraseNode ⟨0⟩ ⟨1⟩ = (k, .ok ()) ∧ ∀ func ∈ k.funcs, k.funcSound func.id = true := by
  have verified : ∀ func ∈ (empty.run diamond).graph.funcs,
      (empty.run diamond).graph.funcSound func.id = true := by decide
  have sa : (empty.run diamond).graph.node? ⟨2⟩ = some _ := rfl
  have sb : (empty.run diamond).graph.node? ⟨1⟩ = some _ := rfl
  obtain ⟨h, f, k, replaced, -, -, -, parent, erased, -, sound⟩ :=
    Reachable.merge_verified reachable_diamond verified sa sb (by decide) (by decide)
  obtain rfl : f = ⟨0⟩ := (Option.some.inj parent).symm
  exact ⟨verified, _, _, h, k, sa, sb, by decide, replaced, erased, sound⟩

end Workspace

end Dataflow
