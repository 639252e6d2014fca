import Dataflow.Proofs.History

/-!
# Uses and definitions

In every reachable workspace the use lists mirror the slots. Whatever the history, including edits
that were refused or stopped half way, a slot that reads a value holds the token of its own record at
the node that it reads, every record is that of a slot that reads the recorded value, and the uses of
a value are the slots that read it, each given once.
-/

namespace Dataflow

namespace Graph

theorem usesOf_result {g : Graph} {p : NodeId} {node : Node} (stored : g.node? p = some node)
    (i : Nat) : g.usesOf (.result p i) = node.uses.recordsOf i := by
  simp only [usesOf, Value.node?, Option.bind_some, stored]
  rfl

/-- The uses of a value are the records of the slots that read it. -/
theorem Symmetric.mem_usesOf {g : Graph} (sym : g.Symmetric) {v : Value} (ne : v ≠ .null) {u : Use} :
    u ∈ g.usesOf v ↔ u.value = v ∧ g.reads? u.user u.slot = some v := by
  cases v with
  | null => exact absurd rfl ne
  | result p i =>
    cases stored : g.node? p with
    | none =>
      have unlisted : g.usesOf (.result p i) = [] := by simp [usesOf, Value.node?, stored]
      rw [unlisted]
      refine iff_of_false List.not_mem_nil ?_
      rintro ⟨-, read⟩
      exact not_contains_iff.2 stored (sym.readable read p rfl)
    | some node =>
      rw [usesOf_result stored, sym.mem_recordsOf stored]
      constructor
      · rintro ⟨read, hp, hi⟩
        have value : u.value = .result p i := by
          cases hv : u.value with
          | null => simp [hv, Value.node?] at hp
          | result q j => simp_all [Value.node?, Value.index]
        exact ⟨value, value ▸ read⟩
      · rintro ⟨value, read⟩
        rw [value]
        exact ⟨read, rfl, fun j hj => Option.some.inj hj⟩

theorem Symmetric.nodup_usesOf {g : Graph} (sym : g.Symmetric) (v : Value) :
    ((g.usesOf v).map fun u => (u.user, u.slot)).Nodup := by
  unfold usesOf
  split
  · rename_i node found
    obtain ⟨p, -, stored⟩ := Option.bind_eq_some_iff.1 found
    exact sym.nodup_records stored (some v.index)
  · exact List.nodup_nil

end Graph

namespace Workspace

/-- Slots and use lists mirror each other in every reachable workspace. -/
theorem Reachable.use_lists_mirror_slots {w : Workspace} (reach : w.Reachable) :
    (∀ user node s o, w.graph.node? user = some node → node.operand? s = some o →
      (o.value = .null → o.token? = none) ∧
      (o.value ≠ .null → ∃ p producer t, o.value.node? = some p ∧
        w.graph.node? p = some producer ∧ o.token? = some t ∧
        producer.uses.get? t = some ⟨user, s, o.value⟩)) ∧
    (∀ n node t u, w.graph.node? n = some node → node.uses.get? t = some u →
      u.value.node? = some n ∧ ∃ user, w.graph.node? u.user = some user ∧
        user.operand? u.slot = some ⟨u.value, some t⟩) ∧
    ∀ v, v ≠ .null → ((w.graph.usesOf v).map fun u => (u.user, u.slot)).Nodup ∧
      ∀ u, u ∈ w.graph.usesOf v ↔ u.value = v ∧ w.graph.reads? u.user u.slot = some v := by
  have sym := reach.consistent.coherent.symmetric
  refine ⟨fun user node s o stored held => ?_, fun n node t u stored recorded => ?_,
    fun v ne => ⟨sym.nodup_usesOf v, fun u => sym.mem_usesOf ne⟩⟩
  · rcases sym.slot (Graph.operand?_eq_some_iff.2 ⟨node, stored, held⟩) with
      rfl | ⟨p, t, hp, ht, recorded⟩
    · exact ⟨fun _ => rfl, fun ne => absurd rfl ne⟩
    · refine ⟨fun null => ?_, fun _ => ?_⟩
      · rw [null] at hp
        cases hp
      · obtain ⟨producer, stored', recorded⟩ := Graph.record?_eq_some_iff.1 recorded
        exact ⟨p, producer, t, hp, stored', ht, recorded⟩
  · obtain ⟨hp, held⟩ := sym.record (Graph.record?_eq_some_iff.2 ⟨node, stored, recorded⟩)
    exact ⟨hp, Graph.operand?_eq_some_iff.1 held⟩

theorem use_lists_mirror_slots_diamond :
    (empty.run diamond).Reachable ∧ ∀ u, u ∈ (empty.run diamond).graph.usesOf (.result ⟨1⟩ 0) ↔
      u.value = .result ⟨1⟩ 0 ∧
        (empty.run diamond).graph.reads? u.user u.slot = some (.result ⟨1⟩ 0) := by
  obtain ⟨-, -, uses⟩ := Reachable.use_lists_mirror_slots reachable_diamond
  exact ⟨reachable_diamond, (uses (.result ⟨1⟩ 0) (by decide)).2⟩

end Workspace

end Dataflow
