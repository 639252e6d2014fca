import Dataflow.Proofs.History

/-!
# Editing one slot

Letting one slot of a stored node read another value concerns up to three nodes: the user, the node
that the slot read and the node that it reads from then on, any two of which may be the same one. The
old record is gone before the new one is added, so that whatever the three nodes are, the list of the
first loses the record of the slot, the list of the second gains one at its end, and nothing else is
touched (`Symmetric.retargeted_connect`). A slot that reads the value already is left alone. Clearing
the operands of a node is one such edit for each of its slots (`Workspace.run_fill_null`).
-/

namespace Dataflow

namespace Graph

/-- The slot `s` of `u`, which reads `old` in `g`, reads `v` in `h`: its record has left the list of
the node that it read, a new record with the token in the slot stands at the end of the list of the node
that it reads, and nothing else is different. -/
structure Retargeted (g : Graph) (u : NodeId) (s : Slot) (old v : Value) (h : Graph) : Prop where
  rewired : g.Rewired h
  operand : ∀ x s', ¬ (x = u ∧ s' = s) → h.operand? x s' = g.operand? x s'
  uses : ∀ p, old.node? ≠ some p → v.node? ≠ some p →
    (h.node? p).map Node.uses = (g.node? p).map Node.uses
  entries : ∃ t?, h.operand? u s = some ⟨v, t?⟩ ∧ t?.isSome = !v.isNull ∧ ∀ p, h.entriesOf p =
    (if old.node? = some p then (g.entriesOf p).filter (·.2.place ≠ (u, s)) else g.entriesOf p) ++
      if v.node? = some p then t?.toList.map (·, ⟨u, s, v⟩) else []

section Connect

variable {g : Graph} {u : NodeId} {s : Slot} {o : Operand} {v : Value}

/-- Only the lists of the node that is left and of the node that is joined change. -/
theorem uses_connect_of_apart (held : g.operand? u s = some o) {p : NodeId}
    (left : o.value.node? ≠ some p) (joined : v.node? ≠ some p) :
    ((g.connect u s v).node? p).map Node.uses = (g.node? p).map Node.uses := by
  rw [connect_eq held]
  split_ifs
  · rfl
  · rw [link, node?_modifyNode, node?_recordUse, node?_forgetUse]
    cases g.node? p with
    | none => simp
    | some node =>
      cases o.token? <;> by_cases hu : u = p <;> simp [left, joined, hu]

/-- A slot that is let read another value holds it with the next token of its node. -/
theorem operand?_connect_self (held : g.operand? u s = some o) (ne : o.value ≠ v) :
    (g.connect u s v).operand? u s = some ⟨v, (g.forgetUse o).nextToken? v⟩ := by
  rw [connect_eq held, if_neg ne, operand?_link, if_pos ⟨rfl, rfl⟩, operand?_forgetUse, held,
    Option.map_some]

theorem Symmetric.entriesOf_connect (sym : g.Symmetric) (held : g.operand? u s = some o)
    (ne : o.value ≠ v) (p : NodeId) :
    (g.connect u s v).entriesOf p = (g.entriesOf p).filter (·.2.place ≠ (u, s)) ++
      if v.node? = some p then ((g.forgetUse o).nextToken? v).toList.map (·, ⟨u, s, v⟩) else [] := by
  rw [connect_eq held, if_neg ne, entriesOf_link, sym.entriesOf_forgetUse held]

/-- The record of a slot stands in the list of the node that it reads, and in no other. -/
theorem Symmetric.filter_place_of_unread (sym : g.Symmetric) (held : g.operand? u s = some o)
    {p : NodeId} (unread : o.value.node? ≠ some p) :
    (g.entriesOf p).filter (·.2.place ≠ (u, s)) = g.entriesOf p := by
  rw [List.filter_eq_self]
  rintro ⟨t, use⟩ he
  rw [decide_eq_true_eq]
  intro here
  obtain ⟨hp, held'⟩ := sym.record (mem_entriesOf.1 he)
  obtain ⟨rfl, rfl⟩ := Prod.mk.inj here
  obtain rfl := Option.some.inj (held'.symm.trans held)
  exact unread hp

theorem Symmetric.retargeted_connect (sym : g.Symmetric) (held : g.operand? u s = some o)
    (ne : o.value ≠ v) (readable : g.Readable v) :
    g.Retargeted u s o.value v (g.connect u s v) := by
  refine ⟨rewired_connect g u s v, fun x s' other => ?_,
    fun p left joined => uses_connect_of_apart held left joined,
    (g.forgetUse o).nextToken? v, operand?_connect_self held ne, ?_, fun p => ?_⟩
  · exact operand?_connect_of_ne g (fun same => other ⟨same.1.symm, same.2.symm⟩) v
  · cases v with
    | null => rfl
    | result p i =>
      obtain ⟨t, next⟩ := ((rewired_forgetUse g o).readable readable).exists_nextToken? rfl
      rw [next]
      rfl
  · rw [sym.entriesOf_connect held ne]
    congr 1
    split_ifs with left
    · rfl
    · exact sym.filter_place_of_unread held left

end Connect

end Graph

/-- The edit that lets a slot of a stored node read a value. -/
def Edit.fill (u : NodeId) (v : Value) : Slot → Edit
  | .predicate => .setPredicate u v
  | .input i => .setInput u i v

namespace Workspace

variable {w : Workspace} {u : NodeId} {v : Value}

/-- An existing slot of a stored node can be let read every value that can be read. -/
theorem apply_fill {s : Slot} {o : Operand} (held : w.graph.operand? u s = some o)
    (readable : w.graph.Readable v) :
    w.apply (.fill u v s) = ({ w with graph := w.graph.connect u s v }, .ok .done) := by
  obtain ⟨node, stored, held⟩ := Graph.operand?_eq_some_iff.1 held
  have found := Graph.nodeOrRefusal_eq_ok_iff.2 stored
  have checked : w.graph.checkReadable u v = .ok () := Graph.checkReadable_eq_ok_iff.2 readable
  cases s with
  | predicate =>
    have done : w.graph.setPredicate u v = .ok (w.graph.connect u .predicate v) :=
      bind_eq_ok_iff.2 ⟨node, found, bind_eq_ok_iff.2 ⟨(), checked, rfl⟩⟩
    simp only [Edit.fill, apply, done]
    rfl
  | input i =>
    obtain ⟨inside, -⟩ := List.getElem?_eq_some_iff.1 held
    have done : w.graph.setInput u i v = .ok (w.graph.connect u (.input i) v) := by
      simp [Graph.setInput, found, inside, checked, Except.mapError, bind, Except.bind, pure,
        Except.pure]
    simp only [Edit.fill, apply, done]
    rfl

/-- Slots are disconnected one after the other. -/
theorem run_fill_null {slots : List Slot}
    (exist : ∀ s ∈ slots, ∃ old, w.graph.reads? u s = some old) :
    w.run (slots.map (.fill u .null)) = { w with graph := w.graph.clearSlots u slots } := by
  induction slots generalizing w with
  | nil => rfl
  | cons s slots ih =>
    rw [List.forall_mem_cons] at exist
    obtain ⟨⟨old, read⟩, rest⟩ := exist
    obtain ⟨o, held, -⟩ := Option.map_eq_some_iff.1 read
    have first := apply_fill held (Graph.readable_null w.graph)
    have still : ∀ s' ∈ slots, ∃ old, (w.graph.connect u s .null).reads? u s' = some old :=
      fun s' hs' => by
        obtain ⟨old, read⟩ := rest s' hs'
        rw [Graph.reads?_connect, read]
        split_ifs
        · exact ⟨.null, rfl⟩
        · exact ⟨old, rfl⟩
    have left := ih (w := { w with graph := w.graph.connect u s .null }) still
    rw [List.map_cons, run, List.foldl_cons, first]
    exact left

/-- In a reachable workspace an existing slot of a stored node can be let read any value that can be
read. If the slot reads this value already the workspace stays as it is; otherwise the slot is
retargeted, with no other effect. Clearing the operands of the node is letting first its predicate and
then each of its inputs read nothing. -/
theorem Reachable.retargeting_is_local (reach : w.Reachable) {node : Node}
    (stored : w.graph.node? u = some node) :
    (∀ s o, node.operand? s = some o → ∀ v, w.graph.Readable v →
      ∃ h, w.apply (.fill u v s) = ({ w with graph := h }, .ok .done) ∧
        h.reads? u s = some v ∧ (v = o.value → h = w.graph) ∧
        (v ≠ o.value → w.graph.Retargeted u s o.value v h)) ∧
    w.apply (.clearOperands u) =
      (w.run (.setPredicate u .null :: (List.range node.inputs.length).map (.setInput u · .null)),
        .ok .done) := by
  have sym := reach.consistent.coherent.symmetric
  have operand (s : Slot) : w.graph.operand? u s = node.operand? s := by
    rw [Graph.operand?, stored, Option.bind_some]
  refine ⟨fun s o held v readable => ?_, ?_⟩
  · rw [← operand] at held
    refine ⟨_, apply_fill held readable, ?_, fun same => ?_, fun ne =>
      sym.retargeted_connect held (Ne.symm ne) readable⟩
    · rw [Graph.reads?_connect, if_pos ⟨rfl, rfl⟩, Graph.reads?, held, Option.map_some,
        Option.map_some]
    · rw [Graph.connect_eq held, if_pos same.symm]
  · have slots : (.setPredicate u .null :: (List.range node.inputs.length).map (.setInput u · .null)) =
        node.slots.map (Edit.fill u .null) := by
      rw [Node.slots_eq, List.map_cons, List.map_map]
      rfl
    have cleared : w.graph.clearOperands u = .ok (w.graph.clearSlots u node.slots) :=
      bind_eq_ok_iff.2 ⟨node, Graph.nodeOrRefusal_eq_ok_iff.2 stored, rfl⟩
    rw [slots, run_fill_null fun s hs => ?_]
    · simp only [apply, cleared]
      rfl
    · obtain ⟨o, held⟩ := Node.mem_slots.1 hs
      exact ⟨o.value, by rw [Graph.reads?, operand, held, Option.map_some]⟩

/-- The sum is let read itself through one of its two inputs: the other one still reads the first
summand. -/
theorem retargeting_is_local_diamond :
    let w := empty.run diamond
    w.Reachable ∧ ∃ h, w.apply (.setInput ⟨3⟩ 0 (.result ⟨3⟩ 0)) = ({ w with graph := h }, .ok .done) ∧
      h.reads? ⟨3⟩ (.input 0) = some (.result ⟨3⟩ 0) ∧
      h.operand? ⟨3⟩ (.input 1) = w.graph.operand? ⟨3⟩ (.input 1) ∧
      h.allUses ⟨1⟩ = [⟨⟨3⟩, .input 1, .result ⟨1⟩ 0⟩] ∧
      h.allUses ⟨3⟩ = [⟨⟨3⟩, .input 0, .result ⟨3⟩ 0⟩] := by
  intro w
  have stored : w.graph.node? ⟨3⟩ = some _ := rfl
  obtain ⟨edits, -⟩ := Reachable.retargeting_is_local reachable_diamond stored
  have self : w.graph.Readable (.result ⟨3⟩ 0) :=
    Graph.readable_result (Graph.contains_of_node? stored) 0
  obtain ⟨h, done, read, -, local_⟩ := edits (.input 0) ⟨.result ⟨1⟩ 0, some ⟨0, 0⟩⟩ rfl _ self
  obtain ⟨-, operand, -, t?, -, isSome, entries⟩ := local_ (by decide)
  obtain ⟨t, rfl⟩ := Option.isSome_iff_exists.1 isSome
  have before : w.graph.entriesOf ⟨1⟩ =
      [(⟨0, 0⟩, ⟨⟨3⟩, .input 0, .result ⟨1⟩ 0⟩), (⟨1, 0⟩, ⟨⟨3⟩, .input 1, .result ⟨1⟩ 0⟩)] ∧
        w.graph.entriesOf ⟨3⟩ = [] := by decide +kernel
  refine ⟨reachable_diamond, h, done, read, operand _ _ (by decide), ?_, ?_⟩
  · rw [Graph.allUses_eq, entries, before.1]
    rfl
  · rw [Graph.allUses_eq, entries, before.2]
    rfl

end Workspace

end Dataflow
