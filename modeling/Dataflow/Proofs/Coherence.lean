import Dataflow.Proofs.Ownership
import Dataflow.Proofs.Redirection

/-!
# Coherent graphs

A graph is coherent when its slots and records mirror each other and its nodes are owned by the
functions that list them. Every edit of a coherent graph leaves a coherent one, also when it fails or
stops half way, and apart from storing a node no edit brings in a new node or a new function
(`Graph.Evolves`). Erasing a listed node cannot fail, and takes nothing else away
(`Coherent.eraseNode`).
-/

namespace Dataflow

namespace Graph

/-- Slots and records mirror each other, and every node has its owner. -/
structure Coherent (g : Graph) : Prop where
  symmetric : g.Symmetric
  owned : g.Owned

/-- A coherent graph `h` left by an edit of `g` that adds nothing. -/
structure Evolves (g h : Graph) : Prop where
  coherent : h.Coherent
  contains : ∀ {n}, h.contains n → g.contains n
  hasFunc : ∀ {f}, h.HasFunc f → g.HasFunc f

theorem Coherent.evolves {g : Graph} (co : g.Coherent) : g.Evolves g := ⟨co, id, id⟩

theorem Coherent.evolves_of_rewired {g h : Graph} (co : g.Coherent) (r : g.Rewired h)
    (sym : h.Symmetric) : g.Evolves h :=
  ⟨⟨sym, r.owned co.owned⟩, fun {n} stored => (r.contains n).symm.trans stored,
    fun {f} => (r.hasFunc f).1⟩

theorem node?_empty (n : NodeId) : empty.node? n = none := Std.ExtTreeMap.getElem?_empty

theorem coherent_empty : empty.Coherent := by
  refine ⟨⟨fun held => ?_, fun recorded => ?_⟩, fun stored => ?_, List.nodup_nil, fun stored => ?_,
    fun listed => ?_⟩
  · simp [operand?, node?_empty] at held
  · simp [record?, node?_empty] at recorded
  · simp [node?_empty] at stored
  · simp [node?_empty] at stored
  · obtain ⟨func, hf, -⟩ := listed
    cases hf

/-! ## Changing a node -/

theorem Symmetric.congr {g h : Graph} (sym : g.Symmetric)
    (operand : ∀ x s, h.operand? x s = g.operand? x s)
    (record : ∀ p t, h.record? p t = g.record? p t) : h.Symmetric := by
  refine ⟨fun {x s o} held => ?_, fun {p t u} recorded => ?_⟩
  · rw [operand] at held
    rcases sym.slot held with null | ⟨p, t, hp, ht, recorded⟩
    · exact .inl null
    · exact .inr ⟨p, t, hp, ht, (record p t).trans recorded⟩
  · rw [record] at recorded
    rw [operand]
    exact sym.record recorded

theorem operand?_modifyNode {g : Graph} {n : NodeId} {f : Node → Node}
    (same : ∀ node, g.node? n = some node → (f node).operand? = node.operand?) (x : NodeId)
    (s : Slot) : (g.modifyNode n f).operand? x s = g.operand? x s := by
  rw [operand?, node?_modifyNode, operand?]
  split_ifs with h
  · subst h
    cases hn : g.node? n with
    | none => rfl
    | some node => rw [Option.map_some, Option.bind_some, Option.bind_some, same node hn]
  · rfl

theorem record?_modifyNode {g : Graph} {n : NodeId} {f : Node → Node}
    (same : ∀ node, g.node? n = some node → (f node).uses = node.uses) (p : NodeId) (t : Token) :
    (g.modifyNode n f).record? p t = g.record? p t := by
  rw [record?, node?_modifyNode, record?]
  split_ifs with h
  · subst h
    cases hn : g.node? n with
    | none => rfl
    | some node => rw [Option.map_some, Option.bind_some, Option.bind_some, same node hn]
  · rfl

/-- A change that concerns neither the operands, the uses, the identity nor the parent of a node. -/
theorem Coherent.modifyNode {g : Graph} (co : g.Coherent) {n : NodeId} {f : Node → Node}
    (same : ∀ node, g.node? n = some node → (f node).operand? = node.operand? ∧
      (f node).uses = node.uses ∧ (f node).id = node.id ∧ (f node).parent? = node.parent?) :
    g.Evolves (g.modifyNode n f) := by
  refine ⟨⟨co.symmetric.congr (operand?_modifyNode fun node h => (same node h).1)
    (record?_modifyNode fun node h => (same node h).2.1), co.owned.congr rfl fun m => ?_⟩,
    fun {m} => by simp, id⟩
  rw [node?_modifyNode]
  split_ifs with h
  · subst h
    cases hn : g.node? n with
    | none => rfl
    | some node =>
      rw [Option.map_some, Option.map_some, Option.map_some, (same node hn).2.2.1,
        (same node hn).2.2.2]
  · rfl

theorem eq_of_setName {g h : Graph} {n : NodeId} {name : String}
    (done : g.setName n name = .ok h) : h = g.modifyNode n ({ · with name }) := by
  obtain ⟨node, -, done⟩ := bind_eq_ok_iff.1 done
  exact (Except.ok.inj done).symm

/-- Assigning a type changes the results of the node only. -/
theorem exists_of_setType {g h : Graph} {n : NodeId} {i : Nat} {t : TensorType}
    (done : g.setType n i t = .ok h) :
    ∃ f, h = g.modifyNode n f ∧ ∀ node, g.node? n = some node →
      (f node).operand? = node.operand? ∧ (f node).uses = node.uses ∧ (f node).id = node.id ∧
        (f node).parent? = node.parent? := by
  obtain ⟨node, found, done⟩ := bind_eq_ok_iff.1 done
  obtain ⟨typed, changed, done⟩ := bind_eq_ok_iff.1 done
  have stored := nodeOrRefusal_eq_ok_iff.1 (mapError_eq_ok_iff.1 found)
  rw [mapError_eq_ok_iff, Node.setType] at changed
  split_ifs at changed
  cases changed
  refine ⟨_, (Except.ok.inj done).symm, fun node' stored' => ?_⟩
  obtain rfl := Option.some.inj (stored.symm.trans stored')
  exact ⟨funext fun s => by cases s <;> rfl, rfl, rfl, rfl⟩

theorem Coherent.setName {g h : Graph} (co : g.Coherent) {n : NodeId} {name : String}
    (done : g.setName n name = .ok h) : g.Evolves h := by
  rw [eq_of_setName done]
  exact co.modifyNode fun _ _ => ⟨funext fun s => by cases s <;> rfl, rfl, rfl, rfl⟩

theorem Coherent.setType {g h : Graph} (co : g.Coherent) {n : NodeId} {i : Nat} {t : TensorType}
    (done : g.setType n i t = .ok h) : g.Evolves h := by
  obtain ⟨f, rfl, same⟩ := exists_of_setType done
  exact co.modifyNode same

/-! ## Editing operands -/

theorem Coherent.connect {g : Graph} (co : g.Coherent) (n : NodeId) (s : Slot) {v : Value}
    (readable : g.Readable v) : g.Evolves (g.connect n s v) :=
  co.evolves_of_rewired (rewired_connect g n s v) (co.symmetric.connect n s readable)

theorem readable_of_check {g : Graph} {n : NodeId} {v : Value} {a : Unit}
    (checked : g.checkReadable n v = .ok a) : g.Readable v :=
  checkReadable_eq_ok_iff.1 checked

theorem eq_of_setInput {g h : Graph} {n : NodeId} {i : Nat} {v : Value}
    (done : g.setInput n i v = .ok h) : g.Readable v ∧ h = g.connect n (.input i) v := by
  obtain ⟨node, -, done⟩ := bind_eq_ok_iff.1 done
  dsimp only at done
  split_ifs at done
  · obtain ⟨_, checked, done⟩ := bind_eq_ok_iff.1 done
    exact ⟨readable_of_check (mapError_eq_ok_iff.1 checked), (Except.ok.inj done).symm⟩
  · cases done

theorem eq_of_setPredicate {g h : Graph} {n : NodeId} {v : Value}
    (done : g.setPredicate n v = .ok h) : g.Readable v ∧ h = g.connect n .predicate v := by
  obtain ⟨node, -, done⟩ := bind_eq_ok_iff.1 done
  obtain ⟨_, checked, done⟩ := bind_eq_ok_iff.1 done
  exact ⟨readable_of_check checked, (Except.ok.inj done).symm⟩

theorem exists_of_clearOperands {g h : Graph} {n : NodeId} (done : g.clearOperands n = .ok h) :
    ∃ slots, h = g.clearSlots n slots := by
  obtain ⟨node, -, done⟩ := bind_eq_ok_iff.1 done
  exact ⟨node.slots, (Except.ok.inj done).symm⟩

theorem Coherent.setInput {g h : Graph} (co : g.Coherent) {n : NodeId} {i : Nat} {v : Value}
    (done : g.setInput n i v = .ok h) : g.Evolves h := by
  obtain ⟨readable, rfl⟩ := eq_of_setInput done
  exact co.connect n (.input i) readable

theorem Coherent.setPredicate {g h : Graph} (co : g.Coherent) {n : NodeId} {v : Value}
    (done : g.setPredicate n v = .ok h) : g.Evolves h := by
  obtain ⟨readable, rfl⟩ := eq_of_setPredicate done
  exact co.connect n .predicate readable

theorem Coherent.clearSlots {g : Graph} (co : g.Coherent) (n : NodeId) (slots : List Slot) :
    g.Evolves (g.clearSlots n slots) :=
  co.evolves_of_rewired (rewired_clearSlots g n slots) (co.symmetric.clearSlots n slots)

theorem Coherent.clearOperands {g h : Graph} (co : g.Coherent) {n : NodeId}
    (done : g.clearOperands n = .ok h) : g.Evolves h := by
  obtain ⟨slots, rfl⟩ := exists_of_clearOperands done
  exact co.clearSlots n slots

/-- However far the redirection of uses gets, the graph stays coherent. -/
theorem Coherent.redirectUses {g : Graph} (co : g.Coherent) (p : NodeId) (tokens : List Token)
    {goal : Nat → Except Violation Value} (goals : ∀ i v, goal i = .ok v → g.Readable v) :
    g.Evolves (g.redirectUses p tokens goal).1 :=
  co.evolves_of_rewired (rewired_redirect p goal tokens g 0)
    (co.symmetric.redirect p goals tokens 0)

theorem guarded_of_ok {α β : Type} {g : Graph} {check : Except Refusal α} {a : α}
    (passed : check = .ok a) (edit : α → Outcome β) : g.guarded check edit = edit a := by
  rw [passed]
  rfl

theorem guarded_of_error {α β : Type} {g : Graph} {check : Except Refusal α} {e : Refusal}
    (failed : check = .error e) (edit : α → Outcome β) :
    g.guarded check edit = (g, .error (.refused e)) := by
  rw [failed]
  rfl

/-- A property of the graph as it is and of what a guarded edit leaves if its check passes. -/
theorem guarded_of_forall {α β : Type} {P : Graph → Prop} {g : Graph} {check : Except Refusal α}
    {edit : α → Outcome β} (same : P g) (passed : ∀ a, check = .ok a → P (edit a).1) :
    P (g.guarded check edit).1 := by
  cases checked : check with
  | error e => exact same
  | ok a => exact passed a checked

theorem patched_replaceUses (g : Graph) (source target : Value) :
    Patched (· = target) g (g.replaceUses source target).1 := by
  cases source with
  | null => exact .refl
  | result p i =>
    refine guarded_of_forall .refl fun tokens _ => ?_
    split_ifs
    · exact .refl
    · exact patched_redirect (fun _ _ found => (Except.ok.inj found).symm) p tokens g 0

theorem patched_replaceNode (g : Graph) (old new : NodeId) :
    Patched (·.node? = some new) g (g.replaceNode old new).1 := by
  refine guarded_of_forall .refl fun (tokens, count) _ => ?_
  dsimp only
  split_ifs
  · exact .refl
  · refine patched_redirect (fun i v found => ?_) old tokens g 0
    split_ifs at found
    cases found
    rfl

theorem patched_clearUses (g : Graph) (n : NodeId) : Patched (· = .null) g (g.clearUses n).1 :=
  guarded_of_forall .refl fun node _ =>
    patched_redirect (fun _ _ found => (Except.ok.inj found).symm) n (node.uses.tokensOf none) g 0

theorem Coherent.guarded {α β : Type} {g : Graph} (co : g.Coherent) {check : Except Refusal α}
    {edit : α → Outcome β} (passed : ∀ a, check = .ok a → g.Evolves (edit a).1) :
    g.Evolves (g.guarded check edit).1 :=
  guarded_of_forall co.evolves passed

theorem Coherent.replaceUses {g : Graph} (co : g.Coherent) (source target : Value) :
    g.Evolves (g.replaceUses source target).1 := by
  cases source with
  | null => exact co.evolves
  | result p i =>
    refine co.guarded fun tokens passed => ?_
    split_ifs
    · exact co.evolves
    · refine co.redirectUses p tokens fun _ v hv => ?_
      obtain ⟨node, -, passed⟩ := bind_eq_ok_iff.1 passed
      obtain ⟨_, checked, -⟩ := bind_eq_ok_iff.1 passed
      cases hv
      exact readable_of_check checked

theorem Coherent.replaceNode {g : Graph} (co : g.Coherent) (old new : NodeId) :
    g.Evolves (g.replaceNode old new).1 := by
  refine co.guarded fun (tokens, count) passed => ?_
  dsimp only
  split_ifs
  · exact co.evolves
  · refine co.redirectUses old tokens fun i v hv => ?_
    split_ifs at hv
    obtain ⟨node, -, passed⟩ := bind_eq_ok_iff.1 passed
    obtain ⟨replacement, found, -⟩ := bind_eq_ok_iff.1 passed
    cases hv
    exact readable_result (contains_of_node? (nodeOrRefusal_eq_ok_iff.1 found)) i

theorem Coherent.clearUses {g : Graph} (co : g.Coherent) (n : NodeId) :
    g.Evolves (g.clearUses n).1 := by
  refine co.guarded fun node _ => co.redirectUses n _ fun _ v hv => ?_
  cases hv
  exact readable_null g

/-! ## Adding a function and attaching a node -/

theorem Coherent.addFunc {g : Graph} (co : g.Coherent) {f : FuncId} (fresh : ¬ g.HasFunc f)
    (name : String) : (g.addFunc f name).Coherent :=
  ⟨⟨co.symmetric.slot, co.symmetric.record⟩, co.owned.addFunc fresh name⟩

/-- A node that passes the check can be listed, and what it reads is stored. -/
theorem Owned.checkAttach {g : Graph} (own : g.Owned) {f : FuncId} {n : Node}
    {before? : Option NodeId} {a : Unit} (checked : g.checkAttach f n before? = .ok a) :
    g.HasFunc f ∧ (∀ b ∈ before?, g.Lists f b) ∧ ∀ e ∈ n.operands, g.Readable e.2 := by
  obtain ⟨func, found, checked⟩ := bind_eq_ok_iff.1 checked
  obtain ⟨hf, rfl⟩ := own.funcOrRefusal_eq_ok_iff.1 found
  refine ⟨List.mem_map_of_mem hf, ?_⟩
  cases parent : n.parent? with
  | some f =>
    rw [parent] at checked
    cases checked
  | none =>
    rw [parent] at checked
    cases before? with
    | none =>
      refine ⟨nofun, fun e he => ?_⟩
      exact readable_of_check (forM_eq_ok_iff.1 checked e he)
    | some b =>
      dsimp only at checked
      split_ifs at checked with listed
      · refine ⟨fun b' hb' => ?_, fun e he => readable_of_check (forM_eq_ok_iff.1 checked e he)⟩
        obtain rfl := Option.some.inj hb'
        exact ⟨func, hf, rfl, func.roster.contains_iff.1 listed⟩
      · cases checked

/-- A node is only attached to what exists, in front of what is listed, and if all that it reads can be
read. -/
theorem Owned.eq_of_attach {g h : Graph} (own : g.Owned) {f : FuncId} {n : Node}
    {before? : Option NodeId} (done : g.attach f n before? = .ok h) :
    h = g.store f n before? ∧ g.HasFunc f ∧ (∀ b ∈ before?, g.Lists f b) ∧
      ∀ e ∈ n.operands, g.Readable e.2 := by
  obtain ⟨_, checked, done⟩ := bind_eq_ok_iff.1 done
  exact ⟨(Except.ok.inj done).symm, own.checkAttach checked⟩

/-- Attaching stores the node and nothing else. -/
theorem Coherent.attach {g h : Graph} (co : g.Coherent) {f : FuncId} {n : Node} (free : n.Unlinked)
    (absent : g.node? n.id = none) {before? : Option NodeId}
    (done : g.attach f n before? = .ok h) :
    h.Coherent ∧ (∀ m, h.contains m ↔ g.contains m ∨ m = n.id) ∧
      ∀ f', h.HasFunc f' ↔ g.HasFunc f' := by
  obtain ⟨rfl, exists_, anchor, readable⟩ := co.owned.eq_of_attach done
  obtain ⟨k, r, eq⟩ := exists_rewired_store absent readable f before?
  refine ⟨⟨co.symmetric.store free absent readable f before?,
    co.owned.store exists_ absent readable anchor⟩, fun m => ?_, fun f' => ?_⟩
  · have stored : (g.store f n before?).contains m = k.contains m := by
      rw [eq]
      rfl
    rw [stored, r.contains, contains_eq, node?_withNode, contains_eq]
    by_cases h : n.id = m
    · simp [h]
    · simp [h, Ne.symm h]
  · rw [eq, hasFunc_modifyRoster]
    exact r.hasFunc f'

end Graph

end Dataflow
