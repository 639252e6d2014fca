import Dataflow.Proofs.History
import Dataflow.Proofs.WellFormed

/-!
# Verified workspaces

In a reachable workspace the functions are all found in order exactly if the graph is well formed. A
well-formed graph stays well formed when the uses of a result are handed over to another result of the
same type, unless this closes a cycle (`WellFormed.replaceUses`): what every slot reads keeps its type,
and a cycle would have to enter the new producer and then leave through a node that read the old
result.
-/

namespace Dataflow

open Relation

/-! ## New edges into one node -/

section NewEdges

variable {α : Type} {r r' : α → α → Prop} {p : α} {reader : α → Prop}

/-- Paths from `p` use no new edge, if all new edges start at readers and `p` reaches none. -/
theorem reflTransGen_of_apart (edges : ∀ u q, r' u q → r u q ∨ reader u)
    (apart : ∀ u, reader u → ¬ ReflTransGen r p u) {x : α} (path : ReflTransGen r' p x) :
    ReflTransGen r p x := by
  induction path with
  | refl => exact .refl
  | tail _ edge ih => exact (edges _ _ edge).elim ih.tail fun read => absurd ih (apart _ read)

/-- A path follows old edges only, or leaves a reader and goes on from `p`. -/
theorem transGen_or_through (edges : ∀ u q, r' u q → r u q ∨ reader u ∧ q = p) {a b : α}
    (path : TransGen r' a b) :
    TransGen r a b ∨ ∃ u, reader u ∧ ReflTransGen r' a u ∧ ReflTransGen r' p b := by
  induction path with
  | single edge =>
    rcases edges _ _ edge with edge | ⟨read, rfl⟩
    · exact .inl (.single edge)
    · exact .inr ⟨a, read, .refl, .refl⟩
  | tail before edge ih =>
    rcases ih with old | ⟨u, read, toReader, fromTarget⟩
    · rcases edges _ _ edge with edge | ⟨read, rfl⟩
      · exact .inl (old.tail edge)
      · exact .inr ⟨_, read, before.to_reflTransGen, .refl⟩
    · exact .inr ⟨u, read, toReader, fromTarget.tail edge⟩

/-- New edges from readers into `p` close no cycle, if `p` reaches no reader. -/
theorem acyclic_of_apart (edges : ∀ u q, r' u q → r u q ∨ reader u ∧ q = p)
    (apart : ∀ u, reader u → ¬ ReflTransGen r p u) (acyclic : ∀ n, ¬ TransGen r n n) (n : α) :
    ¬ TransGen r' n n := by
  intro cycle
  rcases transGen_or_through edges cycle with old | ⟨u, read, toReader, fromTarget⟩
  · exact acyclic n old
  · refine apart u read (reflTransGen_of_apart (fun u q edge => ?_) apart (fromTarget.trans toReader))
    exact (edges u q edge).imp_right And.left

end NewEdges

namespace Graph

/-! ## Results that stay -/

/-- Every node of `g` is stored in `h` with the same results. -/
def KeepsResults (g h : Graph) : Prop :=
  ∀ p node, g.node? p = some node → ∃ node', h.node? p = some node' ∧ node'.results = node.results

theorem KeepsResults.refl (g : Graph) : g.KeepsResults g := fun _ node stored => ⟨node, stored, rfl⟩

theorem KeepsResults.hasResult {g h : Graph} (keeps : g.KeepsResults h) {v : Value}
    (hv : g.HasResult v) : h.HasResult v := by
  obtain ⟨p, i, producer, rfl, stored, hi⟩ := hv
  obtain ⟨producer', stored', results⟩ := keeps p producer stored
  exact ⟨p, i, producer', rfl, stored', results ▸ hi⟩

theorem KeepsResults.hasType {g h : Graph} (keeps : g.KeepsResults h) {v : Value} {t : TensorType}
    (hv : g.HasType v t) : h.HasType v t := by
  obtain ⟨p, i, producer, rfl, stored, typed⟩ := hv
  obtain ⟨producer', stored', results⟩ := keeps p producer stored
  exact ⟨p, i, producer', rfl, stored', results ▸ typed⟩

theorem KeepsResults.readType? {g h : Graph} (keeps : g.KeepsResults h) {v : Value}
    (hv : g.HasResult v) : h.readType? v = g.readType? v := by
  obtain ⟨p, i, producer, rfl, stored, -⟩ := hv
  obtain ⟨producer', stored', results⟩ := keeps p producer stored
  simp only [Graph.readType?, Value.node?, Option.bind_some, stored, stored', results]

theorem Rewired.keepsResults {g h : Graph} (r : g.Rewired h) : g.KeepsResults h :=
  fun p node stored => by
    obtain ⟨node', stored', same⟩ := r.symm.exists_node stored
    exact ⟨node', stored', (Node.same_of_bare same).2.2.1⟩

/-- Rewiring keeps all types, also of values that read no result. -/
theorem Rewired.readType? {g h : Graph} (r : g.Rewired h) (v : Value) :
    h.readType? v = g.readType? v := by
  ext t
  rw [readType?_eq_some_iff, readType?_eq_some_iff]
  exact ⟨r.symm.keepsResults.hasType, r.keepsResults.hasType⟩

/-! ## Substituting what is read -/

theorem getElem?_inputValues {g : Graph} {n : NodeId} {node : Node} (stored : g.node? n = some node)
    (i : Nat) : node.inputValues[i]? = g.reads? n (.input i) := by
  rw [reads?, operand?, stored, Option.bind_some, Node.inputValues, List.getElem?_map]
  rfl

theorem reads?_predicate {g : Graph} {n : NodeId} {node : Node} (stored : g.node? n = some node) :
    g.reads? n .predicate = some node.predicate.value := by
  rw [reads?, operand?, stored]
  rfl

/-- A node whose slots read substituted values has them for its operands. -/
theorem operands_of_reads {g h : Graph} {n : NodeId} {old new : Node} {subst : Value → Value}
    (before : g.node? n = some old) (after : h.node? n = some new)
    (reads : ∀ s, h.reads? n s = (g.reads? n s).map subst) :
    new.inputValues = old.inputValues.map subst ∧ new.predicate.value = subst old.predicate.value := by
  constructor
  · apply List.ext_getElem?
    intro i
    rw [getElem?_inputValues after, reads, List.getElem?_map, getElem?_inputValues before]
  · have := reads .predicate
    rwa [reads?_predicate after, reads?_predicate before, Option.map_some, Option.some.injEq] at this

/-- A node stays well formed when the values that it reads are replaced by results of the same
types. -/
theorem WellFormedNode.transfer {g h : Graph} {n : NodeId} {old new : Node} {subst : Value → Value}
    (formed : g.WellFormedNode old) (before : g.node? n = some old) (after : h.node? n = some new)
    (same : old.bare = new.bare) (reads : ∀ s, h.reads? n s = (g.reads? n s).map subst)
    (null : subst .null = .null)
    (results : ∀ s v, g.reads? n s = some v → g.HasResult v → h.HasResult (subst v))
    (types : ∀ s v, g.reads? n s = some v → h.readType? (subst v) = g.readType? v) :
    h.WellFormedNode new := by
  obtain ⟨-, op, produced, -, inputs_length⟩ := Node.same_of_bare same
  obtain ⟨inputs, predicate⟩ := operands_of_reads before after reads
  have input {v : Value} (hv : v ∈ old.inputValues) : ∃ s, g.reads? n s = some v := by
    obtain ⟨i, hi⟩ := List.getElem?_of_mem hv
    exact ⟨.input i, (getElem?_inputValues before i).symm.trans hi⟩
  have read : new.inputValues.map h.readType? = old.inputValues.map g.readType? := by
    rw [inputs, List.map_map]
    refine List.map_congr_left fun v hv => ?_
    obtain ⟨s, hs⟩ := input hv
    exact types s v hs
  refine ⟨by rw [← op, ← produced, formed.result_count], fun t? ht => formed.typed t? (produced ▸ ht),
    by rw [← op, ← inputs_length]; exact formed.arity, fun v hv => ?_, ?_, ?_⟩
  · rw [inputs] at hv
    obtain ⟨w, hw, rfl⟩ := List.mem_map.1 hv
    obtain ⟨s, hs⟩ := input hw
    exact results s w hs (formed.inputs w hw)
  · rw [predicate]
    rcases formed.predicate with none | ⟨t, typed, bool⟩
    · exact .inl (none ▸ null)
    · refine .inr ⟨t, readType?_eq_some_iff.1 ?_, bool⟩
      rw [types .predicate _ (reads?_predicate before), readType?_eq_some_iff.2 typed]
  · obtain ⟨ins, outs, reads', produces, fits⟩ := formed.fits
    exact ⟨ins, outs, read.trans reads', produced ▸ produces, op ▸ fits⟩

/-- A node stays well formed when every value that it reads is replaced by one of the same type. -/
theorem Rewired.wellFormedNode {g h : Graph} (r : g.Rewired h) {subst : Value → Value}
    (reads : ∀ x s, h.reads? x s = (g.reads? x s).map subst) (null : subst .null = .null)
    (results : ∀ v, g.HasResult v → g.HasResult (subst v))
    (types : ∀ v, g.readType? (subst v) = g.readType? v) {n : NodeId} {old new : Node}
    (before : g.node? n = some old) (after : h.node? n = some new)
    (formed : g.WellFormedNode old) : h.WellFormedNode new := by
  obtain ⟨old', before', same⟩ := r.exists_node after
  obtain rfl := Option.some.inj (before.symm.trans before')
  exact formed.transfer before after same (reads n) null
    (fun _ v _ hv => r.keepsResults.hasResult (results v hv))
    fun _ v _ => (r.readType? _).trans (types v)

/-! ## Replacing uses -/

theorem rewired_replaceUses (g : Graph) (source target : Value) :
    g.Rewired (g.replaceUses source target).1 :=
  (patched_replaceUses g source target).rewired

/-- Replacing the uses of a stored node's result by a value that can be read succeeds. -/
theorem Symmetric.exists_replaceUses {g : Graph} (sym : g.Symmetric) {p : NodeId}
    (stored : g.contains p) (i : Nat) {target : Value} (readable : g.Readable target) :
    ∃ h k, g.replaceUses (.result p i) target = (h, .ok k) := by
  obtain ⟨node, stored⟩ := contains_iff.1 stored
  by_cases ne : .result p i = target
  · exact ⟨g, 0, ne ▸ replaceUses_self stored i⟩
  · exact ⟨_, _, sym.replaceUses_eq stored i readable ne⟩

theorem HasResult.typeOf_eq {g : Graph} {v : Value} (hv : g.HasResult v) :
    g.typeOf v = .ok (g.readType? v) := by
  obtain ⟨p, i, producer, rfl, stored, hi⟩ := hv
  simp only [typeOf, Graph.readType?, Value.node?, Value.index, Option.bind_some, stored,
    Node.resultType, List.getElem?_eq_getElem hi, Option.join_some]

theorem HasResult.readable {g : Graph} {v : Value} (hv : g.HasResult v) : g.Readable v := by
  obtain ⟨p, i, producer, rfl, stored, -⟩ := hv
  exact readable_result (contains_of_node? stored) i

/-- A graph stays well formed when the uses of a result are handed over to one of the same type whose
node reaches none of the readers. -/
theorem WellFormed.replaceUses {g : Graph} (formed : g.WellFormed) (sym : g.Symmetric)
    {source target : Value} (hs : g.HasResult source) (ht : g.HasResult target)
    (same : g.typeOf source = g.typeOf target)
    (apart : ∀ p u s, target.node? = some p → g.reads? u s = some source →
      ¬ ReflTransGen g.Reads p u) :
    (g.replaceUses source target).1.WellFormed := by
  have r := rewired_replaceUses g source target
  have reads : ∀ x s, (g.replaceUses source target).1.reads? x s =
      (g.reads? x s).map fun v => if v = source then target else v := by
    obtain ⟨p, i, producer, rfl, stored, -⟩ := hs
    exact sym.reads?_replaceUses rfl (contains_of_node? stored) ht.readable
  generalize (g.replaceUses source target).1 = h at r reads
  have types : ∀ v, g.readType? (if v = source then target else v) = g.readType? v := by
    intro v
    split_ifs with hv
    · rw [hs.typeOf_eq, ht.typeOf_eq, Except.ok.injEq] at same
      rw [hv, same]
    · rfl
  refine ⟨fun {n new} after => ?_, ?_⟩
  · obtain ⟨old, before, -⟩ := r.exists_node after
    refine r.wellFormedNode reads (if_neg ?_) (fun v hv => ?_) types before after (formed.node before)
    · obtain ⟨p, i, producer, rfl, -⟩ := hs
      exact Value.noConfusion
    · split_ifs
      · exact ht
      · exact hv
  · obtain ⟨p, i, producer, rfl, -⟩ := ht
    refine @acyclic_of_apart NodeId g.Reads h.Reads p (fun u => ∃ s, g.reads? u s = some source)
      (fun u q edge => ?_) (fun u ⟨s, read⟩ => apart p u s rfl read) formed.acyclic
    obtain ⟨⟨s, v, read, hq⟩, stored⟩ := edge
    rw [reads, Option.map_eq_some_iff] at read
    obtain ⟨w, read, rfl⟩ := read
    split_ifs at hq with hw
    · exact .inr ⟨⟨s, hw ▸ read⟩, (Option.some.inj hq).symm⟩
    · exact .inl ⟨⟨s, w, read, hq⟩, (r.contains q).symm.trans stored⟩

end Graph

namespace Workspace

/-- A diagnosis of all functions of a reachable workspace finds nothing exactly if the graph is well
formed. -/
theorem Reachable.verified_iff_wellFormed {w : Workspace} (reach : w.Reachable) :
    (∀ func ∈ w.graph.funcs, w.graph.funcSound func.id = true) ↔ w.graph.WellFormed :=
  reach.consistent.coherent.funcSound_iff_wellFormed

theorem verified_iff_wellFormed_diamond :
    (empty.run diamond).Reachable ∧ (empty.run diamond).graph.WellFormed :=
  ⟨reachable_diamond, (Reachable.verified_iff_wellFormed reachable_diamond).1 (by decide)⟩

/-- In a verified reachable workspace, handing the uses of a result over to one of the same type
succeeds and leaves all functions verified, if the new producer neither is nor reaches a reader. -/
theorem Reachable.replaceUses_verified {w : Workspace} (reach : w.Reachable)
    (verified : ∀ func ∈ w.graph.funcs, w.graph.funcSound func.id = true) {source target : Value}
    (hs : w.graph.HasResult source) (ht : w.graph.HasResult target)
    (same : w.graph.typeOf source = w.graph.typeOf target)
    (apart : ∀ p u s, target.node? = some p → w.graph.reads? u s = some source →
      ¬ ReflTransGen w.graph.Reads p u) :
    ∃ h k, w.graph.replaceUses source target = (h, .ok k) ∧
      ∀ func ∈ h.funcs, h.funcSound func.id = true := by
  have co := reach.consistent.coherent
  have formed := (co.funcSound_iff_wellFormed.1 verified).replaceUses co.symmetric hs ht same apart
  have evolves := co.replaceUses source target
  obtain ⟨p, i, producer, rfl, stored, hi⟩ := hs
  obtain ⟨h, k, done⟩ := co.symmetric.exists_replaceUses
    (Graph.contains_of_node? stored) i ht.readable
  rw [done] at formed evolves
  exact ⟨h, k, done, evolves.coherent.funcSound_iff_wellFormed.2 formed⟩

theorem replaceUses_verified_diamond :
    ∃ h k, (empty.run diamond).graph.replaceUses (.result ⟨1⟩ 0) (.result ⟨2⟩ 0) = (h, .ok k) ∧
      ∀ func ∈ h.funcs, h.funcSound func.id = true := by
  have read {u q : NodeId}
      (h : ∃ s v, (empty.run diamond).graph.reads? u s = some v ∧ v.node? = some q) :
      q ∈ (((empty.run diamond).graph.node? u).map Node.operandNodes).getD [] := by
    obtain ⟨s, v, held, hq⟩ := h
    cases stored : (empty.run diamond).graph.node? u with
    | none => simp [Graph.reads?, Graph.operand?, stored] at held
    | some node => exact (Graph.mem_operandNodes stored).2 ⟨s, v, held, hq⟩
  refine Reachable.replaceUses_verified reachable_diamond (by decide) ⟨_, _, _, rfl, rfl, by decide⟩
    ⟨_, _, _, rfl, rfl, by decide⟩ (by decide) fun p u s hp held path => ?_
  obtain rfl := Option.some.inj hp
  -- only the second node and the placeholder lie below the new producer
  have below : u ∈ [(⟨2⟩ : NodeId), ⟨0⟩] := by
    clear held
    induction path with
    | refl => decide
    | tail _ edge ih =>
      have closed : ∀ u ∈ [(⟨2⟩ : NodeId), ⟨0⟩],
          ∀ q ∈ (((empty.run diamond).graph.node? u).map Node.operandNodes).getD [],
            q ∈ [(⟨2⟩ : NodeId), ⟨0⟩] := by decide
      exact closed _ ih _ (read edge.1)
  have apart : ∀ u ∈ [(⟨2⟩ : NodeId), ⟨0⟩],
      ⟨1⟩ ∉ (((empty.run diamond).graph.node? u).map Node.operandNodes).getD [] := by decide
  exact apart u below (read ⟨s, _, held, rfl⟩)

end Workspace

end Dataflow
