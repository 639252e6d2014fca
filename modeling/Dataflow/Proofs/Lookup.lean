import Dataflow.Graph.Link
import Mathlib.Data.List.Nodup
import Mathlib.Tactic.SplitIfs

/-!
# Lookups in an edited graph

The proofs look at a graph through four questions: which node is stored under an identity
(`Graph.node?`), what a slot holds (`Graph.operand?`), which value it reads (`Graph.reads?`) and
which record a token stands for (`Graph.record?`). This file answers them for the primitive edits:
changing a node, recording a use, forgetting one and filling a slot.
-/

namespace Dataflow

theorem NodeId.compare_eq_iff {n m : NodeId} : compare n m = .eq ↔ n = m :=
  Std.LawfulEqOrd.compare_eq_iff_eq

theorem Value.ne_null_of_node? {v : Value} {p : NodeId} (hp : v.node? = some p) : v ≠ .null := by
  rintro rfl
  cases hp

/-! ## Checks -/

theorem bind_eq_ok_iff {ε α β : Type} {x : Except ε α} {f : α → Except ε β} {b : β} :
    x >>= f = .ok b ↔ ∃ a, x = .ok a ∧ f a = .ok b := by
  cases x <;> simp [bind, Except.bind]

theorem map_eq_ok_iff {ε α β : Type} {x : Except ε α} {f : α → β} {b : β} :
    x.map f = .ok b ↔ ∃ a, x = .ok a ∧ f a = b := by
  cases x <;> simp [Except.map]

theorem map_eq_error_iff {ε α β : Type} {x : Except ε α} {f : α → β} {e : ε} :
    x.map f = .error e ↔ x = .error e := by
  cases x <;> simp [Except.map]

theorem mapError_eq_ok_iff {ε ε' α : Type} {x : Except ε α} {f : ε → ε'} {a : α} :
    x.mapError f = .ok a ↔ x = .ok a := by
  cases x <;> simp [Except.mapError]

theorem forM_eq_ok_iff {ε α : Type} {f : α → Except ε Unit} {l : List α} {a : Unit} :
    l.forM f = .ok a ↔ ∀ x ∈ l, f x = .ok () := by
  induction l with
  | nil => simp [pure, Except.pure]
  | cons x l ih =>
    rw [List.forall_mem_cons, ← ih]
    exact bind_eq_ok_iff.trans
      ⟨fun ⟨_, first, rest⟩ => ⟨first, rest⟩, fun ⟨first, rest⟩ => ⟨(), first, rest⟩⟩

/-! ## Use lists -/

namespace UseList

theorem get?_empty (t : Token) : empty.get? t = none := by
  rw [Option.eq_none_iff_forall_ne_some]
  intro u hu
  rw [get?_eq_some_iff, entries_empty] at hu
  exact List.not_mem_nil hu

theorem get?_nextToken (l : UseList) : l.get? l.nextToken = none := by
  rw [Option.eq_none_iff_forall_ne_some]
  intro u hu
  have nodup := (l.add u).nodup_token
  rw [entries_add, List.map_append, List.nodup_append] at nodup
  have listed : l.nextToken ∈ l.entries.map (·.1) :=
    List.mem_map.2 ⟨_, l.get?_eq_some_iff.1 hu, rfl⟩
  exact nodup.2.2 _ listed _ (by simp) rfl

theorem get?_add (l : UseList) (u : Use) (t : Token) :
    (l.add u).get? t = if t = l.nextToken then some u else l.get? t := by
  ext w
  rw [get?_eq_some_iff, entries_add, List.mem_append, ← get?_eq_some_iff]
  split_ifs with h
  · subst h
    simp [get?_nextToken, eq_comm]
  · simp [h]

theorem get?_remove (l : UseList) (t t' : Token) :
    (l.remove t).get? t' = if t' = t then none else l.get? t' := by
  ext w
  rw [get?_eq_some_iff, entries_remove, List.mem_filter, ← get?_eq_some_iff]
  split_ifs with h <;> simp [h]

end UseList

/-! ## Nodes -/

namespace Node

/-- The node without what it reads and without its uses: what no edit of operands changes. -/
def bare (n : Node) : Node :=
  { n with
    inputs := n.inputs.map fun _ => .unlinked .null, predicate := .unlinked .null, uses := .empty }

theorem same_of_bare {a b : Node} (h : a.bare = b.bare) :
    a.id = b.id ∧ a.op = b.op ∧ a.results = b.results ∧ a.parent? = b.parent? ∧
      a.inputs.length = b.inputs.length := by
  simp only [bare, Node.mk.injEq, List.map_const'] at h
  obtain ⟨id, op, -, results, inputs, -, parent, -⟩ := h
  exact ⟨id, op, results, parent, by simpa using congrArg List.length inputs⟩

theorem operand?_setOperand (n : Node) (s s' : Slot) (o : Operand) :
    (n.setOperand s o).operand? s' =
      if s = s' then (n.operand? s').map fun _ => o else n.operand? s' := by
  cases s with
  | predicate => cases s' <;> simp [setOperand, operand?]
  | input i =>
    cases s' with
    | predicate => simp [setOperand, operand?]
    | input j =>
      by_cases h : i = j
      · subst h
        by_cases hi : i < n.inputs.length <;> simp [setOperand, operand?, hi]
      · simp [setOperand, operand?, h]

@[simp] theorem uses_setOperand (n : Node) (s : Slot) (o : Operand) :
    (n.setOperand s o).uses = n.uses := by
  cases s <;> rfl

@[simp] theorem id_setOperand (n : Node) (s : Slot) (o : Operand) :
    (n.setOperand s o).id = n.id := by
  cases s <;> rfl

@[simp] theorem bare_setOperand (n : Node) (s : Slot) (o : Operand) :
    (n.setOperand s o).bare = n.bare := by
  cases s with
  | predicate => rfl
  | input i =>
    have same : (n.inputs.set i o).map (fun _ => Operand.unlinked .null) =
        n.inputs.map fun _ => .unlinked .null := by
      simp only [List.map_const', List.length_set]
    simp only [setOperand, bare, same]

/-- The slots of a node with what they hold are its operands. -/
theorem mem_slotOperands {n : Node} {s : Slot} {o : Operand} :
    (s, o) ∈ n.slotOperands ↔ n.operand? s = some o := by
  cases s with
  | predicate => simp [slotOperands, operand?, eq_comm]
  | input i => simp [slotOperands, operand?, List.mem_mapIdx, List.getElem?_eq_some_iff]

theorem mem_slots {n : Node} {s : Slot} : s ∈ n.slots ↔ ∃ o, n.operand? s = some o := by
  simp only [slots, List.mem_map, Prod.exists, mem_slotOperands,
    exists_and_right, exists_eq_right]

theorem mem_operands {n : Node} {s : Slot} {v : Value} :
    (s, v) ∈ n.operands ↔ v ≠ .null ∧ ∃ o, n.operand? s = some o ∧ o.value = v := by
  simp only [operands, List.mem_filterMap, Prod.exists, mem_slotOperands]
  constructor
  · rintro ⟨s', o, ho, h⟩
    cases hv : o.value with
    | null => simp [hv, Value.isNull] at h
    | result p i =>
      simp only [hv, Value.isNull, Bool.false_eq_true, if_false, Option.some.injEq,
        Prod.mk.injEq] at h
      obtain ⟨rfl, rfl⟩ := h
      exact ⟨by simp, o, ho, hv⟩
  · rintro ⟨hv, o, ho, rfl⟩
    refine ⟨s, o, ho, ?_⟩
    cases h : o.value with
    | null => exact absurd h hv
    | result p i => simp [Value.isNull]

theorem slots_eq (n : Node) :
    n.slots = .predicate :: (List.range n.inputs.length).map .input := by
  simp only [slots, slotOperands, List.map_cons, List.cons.injEq, true_and]
  apply List.ext_getElem?
  intro i
  by_cases hi : i < n.inputs.length <;> simp [hi]

/-- No slot occurs twice. -/
theorem nodup_slots (n : Node) : n.slots.Nodup := by
  rw [slots_eq, List.nodup_cons]
  exact ⟨by simp, List.nodup_range.map fun _ _ h => Slot.input.inj h⟩

theorem nodup_operands (n : Node) : (n.operands.map (·.1)).Nodup := by
  refine List.Sublist.nodup ?_ n.nodup_slots
  unfold operands slots
  induction n.slotOperands with
  | nil => exact List.nil_sublist _
  | cons e l ih =>
    obtain ⟨s, o⟩ := e
    by_cases h : o.value.isNull = true
    · simpa [List.filterMap_cons, h] using ih.cons s
    · simpa [List.filterMap_cons, h] using ih.cons_cons s

end Node

/-! ## Stored nodes -/

namespace Graph

theorem ext_node? {g h : Graph} (nodes : ∀ n, g.node? n = h.node? n) (funcs : g.funcs = h.funcs) :
    g = h := by
  cases g
  cases h
  congr
  exact Std.ExtTreeMap.ext_getElem? nodes

theorem contains_eq (g : Graph) (n : NodeId) : g.contains n = (g.node? n).isSome :=
  Std.ExtTreeMap.contains_eq_isSome_getElem?

theorem contains_iff {g : Graph} {n : NodeId} :
    g.contains n = true ↔ ∃ node, g.node? n = some node := by
  rw [contains_eq, Option.isSome_iff_exists]

theorem contains_of_node? {g : Graph} {n : NodeId} {node : Node} (stored : g.node? n = some node) :
    g.contains n = true :=
  contains_iff.2 ⟨node, stored⟩

theorem not_contains_iff {g : Graph} {n : NodeId} :
    ¬ g.contains n = true ↔ g.node? n = none := by
  rw [contains_eq, Option.not_isSome_iff_eq_none]

theorem node?_modifyNode (g : Graph) (n m : NodeId) (f : Node → Node) :
    (g.modifyNode n f).node? m = if n = m then (g.node? m).map f else g.node? m := by
  simp only [node?, modifyNode, Std.ExtTreeMap.getElem?_modify, NodeId.compare_eq_iff]
  split_ifs with h
  · rw [h]
  · rfl

@[simp] theorem funcs_modifyNode (g : Graph) (n : NodeId) (f : Node → Node) :
    (g.modifyNode n f).funcs = g.funcs := rfl

@[simp] theorem contains_modifyNode (g : Graph) (n m : NodeId) (f : Node → Node) :
    (g.modifyNode n f).contains m = g.contains m := by
  simp only [contains_eq, node?_modifyNode]
  split_ifs <;> simp

/-- The graph with `n` stored under its identity. -/
def withNode (g : Graph) (n : Node) : Graph := { g with nodes := g.nodes.insert n.id n }

theorem node?_withNode (g : Graph) (n : Node) (m : NodeId) :
    (g.withNode n).node? m = if n.id = m then some n else g.node? m := by
  simp only [node?, withNode, Std.ExtTreeMap.getElem?_insert, NodeId.compare_eq_iff]

/-- A value can be read if it is null or its node is stored. -/
def Readable (g : Graph) (v : Value) : Prop := ∀ p, v.node? = some p → g.contains p

theorem readable_null (g : Graph) : g.Readable .null := by
  simp [Readable, Value.node?]

theorem readable_result {g : Graph} {p : NodeId} (stored : g.contains p) (i : Nat) :
    g.Readable (.result p i) := fun _ hq => Option.some.inj hq ▸ stored

theorem checkReadable_eq_ok_iff {g : Graph} {user : NodeId} {v : Value} :
    g.checkReadable user v = .ok () ↔ g.Readable v := by
  unfold checkReadable Readable
  cases v.node? <;> simp

/-! ## Slots and records -/

/-- The value that a slot reads. -/
def reads? (g : Graph) (user : NodeId) (s : Slot) : Option Value :=
  (g.operand? user s).map (·.value)

/-- The record of a token in the use list of a node. -/
def record? (g : Graph) (producer : NodeId) (t : Token) : Option Use :=
  (g.node? producer).bind (·.uses.get? t)

theorem operand?_eq_some_iff {g : Graph} {x : NodeId} {s : Slot} {o : Operand} :
    g.operand? x s = some o ↔ ∃ node, g.node? x = some node ∧ node.operand? s = some o :=
  Option.bind_eq_some_iff

theorem record?_eq_some_iff {g : Graph} {p : NodeId} {t : Token} {u : Use} :
    g.record? p t = some u ↔ ∃ node, g.node? p = some node ∧ node.uses.get? t = some u :=
  Option.bind_eq_some_iff

/-- The records of a node are the entries of its use list. -/
theorem record?_eq_some_iff_mem {g : Graph} {p : NodeId} {t : Token} {u : Use} :
    g.record? p t = some u ↔ ∃ node, g.node? p = some node ∧ (t, u) ∈ node.uses.entries := by
  simp only [record?_eq_some_iff, UseList.get?_eq_some_iff]

theorem nextToken?_eq_some_iff {g : Graph} {v : Value} {t : Token} :
    g.nextToken? v = some t ↔
      ∃ p node, v.node? = some p ∧ g.node? p = some node ∧ node.uses.nextToken = t := by
  simp only [nextToken?, Option.map_eq_some_iff, Option.bind_eq_some_iff]
  constructor
  · rintro ⟨node, ⟨p, hp, hn⟩, ht⟩
    exact ⟨p, node, hp, hn, ht⟩
  · rintro ⟨p, node, hp, hn, ht⟩
    exact ⟨node, ⟨p, hp, hn⟩, ht⟩

/-- The token of the next use stands for no record yet. -/
theorem record?_nextToken? {g : Graph} {v : Value} {p : NodeId} {t : Token}
    (hp : v.node? = some p) (ht : g.nextToken? v = some t) : g.record? p t = none := by
  obtain ⟨q, node, hq, hn, rfl⟩ := nextToken?_eq_some_iff.1 ht
  obtain rfl := Option.some.inj (hp.symm.trans hq)
  simp [record?, hn, UseList.get?_nextToken]

theorem node?_recordUse (g : Graph) (u : Use) (m : NodeId) :
    (g.recordUse u).node? m =
      (g.node? m).map fun n =>
        if u.value.node? = some m then { n with uses := n.uses.add u } else n := by
  unfold recordUse
  split <;> rename_i h
  · simp [h]
  · rename_i p
    rw [node?_modifyNode]
    by_cases hp : p = m <;> simp [h, hp]

theorem operand?_recordUse (g : Graph) (u : Use) (x : NodeId) (s : Slot) :
    (g.recordUse u).operand? x s = g.operand? x s := by
  simp only [operand?, node?_recordUse]
  cases g.node? x with
  | none => rfl
  | some n =>
    rw [Option.map_some, Option.bind_some, Option.bind_some]
    split_ifs
    · cases s <;> rfl
    · rfl

theorem record?_recordUse (g : Graph) (u : Use) (p : NodeId) (t : Token) :
    (g.recordUse u).record? p t =
      if u.value.node? = some p ∧ g.nextToken? u.value = some t then some u else g.record? p t := by
  simp only [record?, node?_recordUse, nextToken?]
  by_cases hp : u.value.node? = some p
  · cases hn : g.node? p with
    | none => simp [hp, hn]
    | some n => simp [hp, hn, UseList.get?_add, eq_comm]
  · cases g.node? p <;> simp [hp]

theorem node?_forgetUse (g : Graph) (o : Operand) (m : NodeId) :
    (g.forgetUse o).node? m = (g.node? m).map fun n =>
      match o.token? with
      | some t => if o.value.node? = some m then { n with uses := n.uses.remove t } else n
      | none => n := by
  unfold forgetUse
  cases ht : o.token? with
  | none => simp
  | some t =>
    cases hp : o.value.node? with
    | none => simp
    | some p =>
      rw [node?_modifyNode]
      by_cases h : p = m <;> simp [h]

theorem operand?_forgetUse (g : Graph) (o : Operand) (x : NodeId) (s : Slot) :
    (g.forgetUse o).operand? x s = g.operand? x s := by
  simp only [operand?, node?_forgetUse]
  cases g.node? x with
  | none => rfl
  | some n =>
    rw [Option.map_some, Option.bind_some, Option.bind_some]
    cases o.token? with
    | none => rfl
    | some t =>
      dsimp only
      split_ifs
      · cases s <;> rfl
      · rfl

theorem record?_forgetUse (g : Graph) (o : Operand) (p : NodeId) (t : Token) :
    (g.forgetUse o).record? p t =
      if o.value.node? = some p ∧ o.token? = some t then none else g.record? p t := by
  simp only [record?, node?_forgetUse]
  cases g.node? p with
  | none => simp
  | some n =>
    cases ht : o.token? with
    | none => simp
    | some t' =>
      by_cases hp : o.value.node? = some p
      · simp [hp, UseList.get?_remove, eq_comm]
      · simp [hp]

theorem operand?_modifyNode_setOperand (g : Graph) (user x : NodeId) (s s' : Slot) (o : Operand) :
    (g.modifyNode user (·.setOperand s o)).operand? x s' =
      if user = x ∧ s = s' then (g.operand? x s').map fun _ => o else g.operand? x s' := by
  simp only [operand?, node?_modifyNode]
  by_cases hx : user = x
  · simp only [hx, if_true, true_and]
    cases g.node? x with
    | none => simp
    | some n => simp [Node.operand?_setOperand]
  · simp [hx]

theorem record?_modifyNode_setOperand (g : Graph) (user p : NodeId) (s : Slot) (o : Operand)
    (t : Token) : (g.modifyNode user (·.setOperand s o)).record? p t = g.record? p t := by
  simp only [record?, node?_modifyNode]
  split_ifs with h
  · cases g.node? p <;> simp
  · rfl

end Graph

end Dataflow
