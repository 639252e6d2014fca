import Dataflow.Graph.Attach
import Dataflow.Graph.Erase
import Dataflow.Proofs.Lookup

/-!
# Rewiring

Edits of operands change what slots read and which uses are recorded, and nothing else: the graph
they leave is `Rewired`. They connect slots one after the other (`Patched`). Connecting a slot is
forgetting its old record and then linking the slot to its new value (`connect_eq`), and attaching a
node is storing it and then linking its slots one after the other (`withNode_linkOperands`).
-/

namespace Dataflow

namespace Graph

/-! ## What rewiring keeps -/

/-- Only operands and use lists differ. -/
structure Rewired (g h : Graph) : Prop where
  funcs : h.funcs = g.funcs
  bare : ∀ n, (h.node? n).map Node.bare = (g.node? n).map Node.bare

theorem Rewired.refl (g : Graph) : g.Rewired g := ⟨rfl, fun _ => rfl⟩

theorem Rewired.trans {g h k : Graph} (h₁ : g.Rewired h) (h₂ : h.Rewired k) : g.Rewired k :=
  ⟨h₂.funcs.trans h₁.funcs, fun n => (h₂.bare n).trans (h₁.bare n)⟩

theorem Rewired.symm {g h : Graph} (r : g.Rewired h) : h.Rewired g :=
  ⟨r.funcs.symm, fun n => (r.bare n).symm⟩

theorem Rewired.exists_node {g h : Graph} (r : g.Rewired h) {n : NodeId} {node : Node}
    (stored : h.node? n = some node) : ∃ old, g.node? n = some old ∧ old.bare = node.bare := by
  have same := r.bare n
  rw [stored, Option.map_some, eq_comm, Option.map_eq_some_iff] at same
  exact same

theorem Rewired.contains {g h : Graph} (r : g.Rewired h) (n : NodeId) :
    h.contains n = g.contains n := by
  have same := congrArg Option.isSome (r.bare n)
  simpa only [Option.isSome_map, ← contains_eq] using same

theorem Rewired.readable {g h : Graph} (r : g.Rewired h) {v : Value} (hv : g.Readable v) :
    h.Readable v :=
  fun p hp => (r.contains p).trans (hv p hp)

theorem rewired_modifyNode (g : Graph) (n : NodeId) {f : Node → Node}
    (hf : ∀ node, (f node).bare = node.bare) : g.Rewired (g.modifyNode n f) := by
  refine ⟨rfl, fun m => ?_⟩
  rw [node?_modifyNode]
  split_ifs
  · simp [Function.comp_def, hf]
  · rfl

theorem rewired_recordUse (g : Graph) (u : Use) : g.Rewired (g.recordUse u) := by
  unfold recordUse
  split
  · exact .refl g
  · exact rewired_modifyNode g _ fun _ => rfl

theorem rewired_forgetUse (g : Graph) (o : Operand) : g.Rewired (g.forgetUse o) := by
  unfold forgetUse
  split
  · exact rewired_modifyNode g _ fun _ => rfl
  · exact .refl g

/-! ## Linking a slot -/

/-- Records the use of `v` by a slot and fills the slot with `v` and the token of the record. -/
def link (g : Graph) (user : NodeId) (s : Slot) (v : Value) : Graph :=
  (g.recordUse ⟨user, s, v⟩).modifyNode user (·.setOperand s ⟨v, g.nextToken? v⟩)

theorem operand?_link (g : Graph) (user x : NodeId) (s s' : Slot) (v : Value) :
    (g.link user s v).operand? x s' =
      if user = x ∧ s = s' then (g.operand? x s').map fun _ => ⟨v, g.nextToken? v⟩
      else g.operand? x s' := by
  rw [link, operand?_modifyNode_setOperand, operand?_recordUse]

theorem record?_link (g : Graph) (user p : NodeId) (s : Slot) (v : Value) (t : Token) :
    (g.link user s v).record? p t =
      if v.node? = some p ∧ g.nextToken? v = some t then some ⟨user, s, v⟩ else g.record? p t := by
  rw [link, record?_modifyNode_setOperand, record?_recordUse]

theorem rewired_link (g : Graph) (user : NodeId) (s : Slot) (v : Value) :
    g.Rewired (g.link user s v) :=
  (rewired_recordUse g _).trans (rewired_modifyNode _ _ fun node => node.bare_setOperand s _)

/-! ## Connecting a slot -/

theorem connect_of_none {g : Graph} {user : NodeId} {s : Slot} (h : g.operand? user s = none)
    (v : Value) : g.connect user s v = g := by
  simp [connect, h]

/-- Connecting is forgetting the old record and linking the slot anew. -/
theorem connect_eq {g : Graph} {user : NodeId} {s : Slot} {old : Operand}
    (h : g.operand? user s = some old) (v : Value) :
    g.connect user s v = if old.value = v then g else (g.forgetUse old).link user s v := by
  simp [connect, h, link]

theorem rewired_connect (g : Graph) (user : NodeId) (s : Slot) (v : Value) :
    g.Rewired (g.connect user s v) := by
  cases h : g.operand? user s with
  | none =>
    rw [connect_of_none h]
    exact .refl g
  | some old =>
    rw [connect_eq h]
    split_ifs
    · exact .refl g
    · exact (rewired_forgetUse g old).trans (rewired_link _ user s v)

/-- A connected slot reads the new value and every other slot what it read before. -/
theorem reads?_connect (g : Graph) (user x : NodeId) (s s' : Slot) (v : Value) :
    (g.connect user s v).reads? x s' =
      if user = x ∧ s = s' then (g.reads? x s').map fun _ => v else g.reads? x s' := by
  cases h : g.operand? user s with
  | none =>
    rw [connect_of_none h]
    split_ifs with same
    · obtain ⟨rfl, rfl⟩ := same
      simp [reads?, h]
    · rfl
  | some old =>
    rw [connect_eq h]
    split_ifs with he same same
    · obtain ⟨rfl, rfl⟩ := same
      simp [reads?, h, he]
    · rfl
    · obtain ⟨rfl, rfl⟩ := same
      simp [reads?, operand?_link, operand?_forgetUse, h]
    · simp [reads?, operand?_link, operand?_forgetUse, same]

theorem reads?_clearSlots (g : Graph) (n x : NodeId) (slots : List Slot) (s : Slot) :
    (g.clearSlots n slots).reads? x s =
      if n = x ∧ s ∈ slots then (g.reads? x s).map fun _ => .null else g.reads? x s := by
  unfold clearSlots
  induction slots generalizing g with
  | nil => simp
  | cons s' slots ih =>
    rw [List.foldl_cons, ih, reads?_connect]
    by_cases hx : n = x
    · by_cases hs : s' = s
      · simp [hx, hs, Function.comp_def]
      · simp [hx, hs, Ne.symm hs]
    · simp [hx]

/-! ## Patches -/

/-- Connecting slots of `g` one after the other to values with the property `P` leaves `h`. -/
inductive Patched (P : Value → Prop) : Graph → Graph → Prop
  | refl {g} : Patched P g g
  | connect {g h} (user : NodeId) (s : Slot) {v : Value} (goal : P v)
    (rest : Patched P (g.connect user s v) h) : Patched P g h

theorem Patched.rewired {P : Value → Prop} {g h : Graph} (p : Patched P g h) : g.Rewired h := by
  induction p with
  | refl => exact .refl _
  | connect user s _ _ ih => exact (rewired_connect _ user s _).trans ih

theorem patched_clearSlots (g : Graph) (n : NodeId) (slots : List Slot) :
    Patched (· = .null) g (g.clearSlots n slots) := by
  unfold clearSlots
  induction slots generalizing g with
  | nil => exact .refl
  | cons s slots ih => exact .connect n s rfl (ih _)

/-- However far it gets, a redirection connects slots to goals. -/
theorem patched_redirect {P : Value → Prop} {goal : Nat → Except Violation Value}
    (goals : ∀ i v, goal i = .ok v → P v) (producer : NodeId) (tokens : List Token) (g : Graph)
    (count : Nat) : Patched P g (redirect producer goal tokens g count).1 := by
  induction tokens generalizing g count with
  | nil => exact .refl
  | cons t tokens ih =>
    rw [redirect]
    split
    · exact ih g count
    · split
      · exact .refl
      · split
        · exact .refl
        · split_ifs
          · exact .refl
          · split
            · exact .refl
            · next found => exact .connect _ _ (goals _ _ found) (ih _ _)

theorem rewired_clearSlots (g : Graph) (n : NodeId) (slots : List Slot) :
    g.Rewired (g.clearSlots n slots) :=
  (patched_clearSlots g n slots).rewired

theorem rewired_redirect (producer : NodeId) (goal : Nat → Except Violation Value)
    (tokens : List Token) (g : Graph) (count : Nat) :
    g.Rewired (redirect producer goal tokens g count).1 :=
  (patched_redirect (P := fun _ => True) (fun _ _ _ => trivial) producer tokens g count).rewired

/-! ## Storing a node -/

theorem nextToken?_withNode {g : Graph} {n : Node} {v : Value} (h : v.node? ≠ some n.id) :
    (g.withNode n).nextToken? v = g.nextToken? v := by
  unfold nextToken?
  cases hv : v.node? with
  | none => rfl
  | some p =>
    have ne : n.id ≠ p := fun e => h (hv.trans (congrArg some e.symm))
    simp [node?_withNode, ne]

theorem Readable.node?_ne {g : Graph} {v : Value} (hv : g.Readable v) {n : NodeId}
    (absent : g.node? n = none) : v.node? ≠ some n := by
  intro h
  exact not_contains_iff.2 absent (hv n h)

/-- Recording a use on behalf of a node and then storing the node is storing it and then linking. -/
theorem withNode_setOperand {g : Graph} {n : Node} (absent : g.node? n.id = none) (s : Slot)
    {v : Value} (hv : g.Readable v) :
    (g.recordUse ⟨n.id, s, v⟩).withNode (n.setOperand s ⟨v, g.nextToken? v⟩) =
      (g.withNode n).link n.id s v := by
  have ne := hv.node?_ne absent
  refine ext_node? (fun m => ?_) ?_
  · rw [link, node?_withNode, node?_modifyNode, node?_recordUse, node?_recordUse, node?_withNode,
      Node.id_setOperand, nextToken?_withNode ne]
    by_cases hm : n.id = m
    · subst hm
      simp [ne]
    · simp [hm]
  · have recorded := (rewired_recordUse g ⟨n.id, s, v⟩).funcs
    exact recorded.trans (rewired_link (g.withNode n) n.id s v).funcs.symm

theorem withNode_linkOperands {g : Graph} {n : Node} (absent : g.node? n.id = none)
    {operands : List (Slot × Value)} (readable : ∀ e ∈ operands, g.Readable e.2) :
    (linkOperands operands g n).1.withNode (linkOperands operands g n).2 =
      operands.foldl (fun g e => g.link n.id e.1 e.2) (g.withNode n) := by
  induction operands generalizing g n with
  | nil => rfl
  | cons e operands ih =>
    obtain ⟨s, v⟩ := e
    have hv : g.Readable v := readable (s, v) (List.mem_cons_self ..)
    have kept := rewired_recordUse g ⟨n.id, s, v⟩
    have absent' : (g.recordUse ⟨n.id, s, v⟩).node? (n.setOperand s ⟨v, g.nextToken? v⟩).id = none := by
      rw [Node.id_setOperand, ← not_contains_iff, kept.contains, not_contains_iff, absent]
    rw [linkOperands, List.foldl_cons, ih absent' fun e he =>
      kept.readable (readable e (List.mem_cons_of_mem _ he)), withNode_setOperand absent s hv,
      Node.id_setOperand]

theorem id_linkOperands (operands : List (Slot × Value)) (g : Graph) (n : Node) :
    (linkOperands operands g n).2.id = n.id := by
  induction operands generalizing g n with
  | nil => rfl
  | cons e operands ih =>
    obtain ⟨s, v⟩ := e
    rw [linkOperands, ih, Node.id_setOperand]

theorem rewired_foldl_link (g : Graph) (user : NodeId) (operands : List (Slot × Value)) :
    g.Rewired (operands.foldl (fun g e => g.link user e.1 e.2) g) := by
  induction operands generalizing g with
  | nil => exact .refl g
  | cons e operands ih => exact (rewired_link g user e.1 e.2).trans (ih _)

end Graph

end Dataflow
