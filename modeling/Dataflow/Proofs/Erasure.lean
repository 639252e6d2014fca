import Dataflow.Proofs.Coherence
import Dataflow.Proofs.UseOrder

/-!
# Erasing nodes and functions

Before a node is discarded its slots are disconnected and then the slots that read it, and neither
can fail in a coherent graph (`Coherent.exists_detached`). So erasing a listed node succeeds
(`Coherent.eraseNode`), erasing any other node changes nothing, and a function is erased together with
exactly the nodes that it lists (`Coherent.eraseFunc`).
-/

namespace Dataflow

namespace Graph

/-- The nodes `ns` were erased from `g`, which left `h`. -/
structure Erased (g : Graph) (ns : List NodeId) (h : Graph) : Prop where
  coherent : h.Coherent
  contains : ∀ {m}, h.contains m ↔ g.contains m ∧ m ∉ ns
  lists : ∀ {f m}, h.Lists f m ↔ g.Lists f m ∧ m ∉ ns
  hasFunc : ∀ {f}, h.HasFunc f ↔ g.HasFunc f

theorem Erased.evolves {g h : Graph} {ns : List NodeId} (er : Erased g ns h) : g.Evolves h :=
  ⟨er.coherent, fun stored => (er.contains.1 stored).1, er.hasFunc.1⟩

theorem Coherent.erased_nil {g : Graph} (co : g.Coherent) : Erased g [] g :=
  ⟨co, by simp, by simp, Iff.rfl⟩

theorem Erased.cons {g h k : Graph} {n : NodeId} {ns : List NodeId} (first : Erased g [n] h)
    (rest : Erased h ns k) : Erased g (n :: ns) k := by
  refine ⟨rest.coherent, fun {m} => ?_, fun {f m} => ?_, rest.hasFunc.trans first.hasFunc⟩
  · rw [rest.contains, first.contains, List.mem_singleton, List.mem_cons, not_or, and_assoc]
  · rw [rest.lists, first.lists, List.mem_singleton, List.mem_cons, not_or, and_assoc]

theorem Erased.of_rewired {g h k : Graph} {ns : List NodeId} (r : g.Rewired h)
    (er : Erased h ns k) : Erased g ns k := by
  refine ⟨er.coherent, fun {m} => ?_, fun {f m} => ?_, fun {f} => er.hasFunc.trans (r.hasFunc f)⟩
  · rw [er.contains, r.contains]
  · rw [er.lists, r.lists]

/-! ## Erasing a node -/

/-- Discarding a listed node that reads nothing and that nothing reads erases it. -/
theorem Coherent.erased_discard {g : Graph} (co : g.Coherent) {f : FuncId} {n : NodeId}
    (listed : g.Lists f n) (idle : ∀ s v, g.reads? n s = some v → v = .null)
    (unread : ∀ user s v, g.reads? user s = some v → v.node? ≠ some n) :
    Erased g [n] (g.discard f n) := by
  refine ⟨⟨co.symmetric.discard f idle unread, co.owned.discard listed⟩, fun {m} => ?_,
    fun {f' m} => ?_, fun {f'} => hasFunc_modifyRoster g f f' (·.remove? n)⟩
  · rw [contains_eq, node?_discard, contains_eq]
    by_cases h : n = m
    · simp [h]
    · simp [h, Ne.symm h]
  · rw [lists_discard, List.mem_singleton]
    refine and_congr_right fun hm => not_congr ⟨And.right, fun h => ⟨?_, h⟩⟩
    exact co.owned.owner_unique hm (h ▸ listed)

theorem Owned.checkOwned_eq_ok_iff {g : Graph} (own : g.Owned) {f : FuncId} {n : NodeId} :
    g.checkOwned f n = .ok () ↔ g.Lists f n := by
  constructor
  · intro checked
    obtain ⟨func, found, checked⟩ := bind_eq_ok_iff.1 checked
    obtain ⟨hf, rfl⟩ := own.funcOrRefusal_eq_ok_iff.1 found
    split_ifs at checked with listed
    exact ⟨func, hf, rfl, func.roster.contains_iff.1 listed⟩
  · rintro ⟨func, hf, rfl, listed⟩
    refine bind_eq_ok_iff.2 ⟨func, own.funcOrRefusal_eq_ok_iff.2 ⟨hf, rfl⟩, ?_⟩
    rw [if_pos (func.roster.contains_iff.2 listed)]
    rfl

/-- The slots of the node `n` and the slots that read it are disconnected; all other slots and
records are where they were. -/
structure Detached (g : Graph) (n : NodeId) (h : Graph) : Prop where
  rewired : g.Rewired h
  symmetric : h.Symmetric
  reads : ∀ x s, h.reads? x s =
    (g.reads? x s).map fun v => if x = n ∨ v.node? = some n then .null else v
  operand : ∀ x s, x ≠ n → (∀ v, g.reads? x s = some v → v.node? ≠ some n) →
    h.operand? x s = g.operand? x s
  uses : ∀ q, q ≠ n → h.allUses q = (g.allUses q).filter (·.user ≠ n)

theorem Detached.idle {g h : Graph} {n : NodeId} (d : g.Detached n h) (s : Slot) (v : Value)
    (read : h.reads? n s = some v) : v = .null := by
  rw [d.reads, Option.map_eq_some_iff] at read
  obtain ⟨w, -, rfl⟩ := read
  exact if_pos (.inl rfl)

theorem Detached.unread {g h : Graph} {n : NodeId} (d : g.Detached n h) (x : NodeId) (s : Slot)
    (v : Value) (read : h.reads? x s = some v) : v.node? ≠ some n := by
  rw [d.reads, Option.map_eq_some_iff] at read
  obtain ⟨w, -, rfl⟩ := read
  split_ifs with gone
  · simp [Value.node?]
  · exact fun hn => gone (.inr hn)

/-- Disconnecting all slots of a node and then all slots that read it detaches the node. -/
theorem Symmetric.detached_clear {g : Graph} (sym : g.Symmetric) {n : NodeId} {node : Node}
    (stored : g.node? n = some node) :
    ∃ h k, (g.clearSlots n node.slots).clearUses n = (h, .ok k) ∧ g.Detached n h := by
  have r := rewired_clearSlots g n node.slots
  have sym₁ := sym.clearSlots n node.slots
  have slots {s : Slot} {v : Value} (read : g.reads? n s = some v) : s ∈ node.slots := by
    obtain ⟨o, held, -⟩ := Option.map_eq_some_iff.1 read
    rw [operand?, stored, Option.bind_some] at held
    exact Node.mem_slots.2 ⟨o, held⟩
  have reads (x : NodeId) (s : Slot) : (g.clearSlots n node.slots).reads? x s =
      (g.reads? x s).map fun v => if x = n then .null else v := by
    rw [reads?_clearSlots]
    cases read : g.reads? x s with
    | none => simp
    | some v =>
      by_cases hx : n = x
      · subst hx
        simp [slots read]
      · simp [hx, Ne.symm hx]
  have operand {x : NodeId} (ne : x ≠ n) (s : Slot) :
      (g.clearSlots n node.slots).operand? x s = g.operand? x s :=
    operand?_clearSlots_of_ne g ne.symm node.slots s
  have uses (q : NodeId) : (g.clearSlots n node.slots).allUses q =
      (g.allUses q).filter (·.user ≠ n) := by
    rw [sym.allUses_clearSlots]
    refine List.filter_congr fun u hu => ?_
    rw [decide_eq_decide, not_iff_not, and_iff_left_iff_imp]
    rintro rfl
    exact slots (sym.mem_allUses.1 hu).1
  generalize g.clearSlots n node.slots = g₁ at r sym₁ reads operand uses ⊢
  obtain ⟨node₁, stored₁, -⟩ := r.symm.exists_node stored
  have cleared := sym₁.clearUses_eq stored₁
  rw [UseList.recordsOf_none, ← allUses_of_stored stored₁] at cleared
  have redirected := sym₁.redirected_connectAll (List.Sublist.refl (g₁.allUses n))
    (f := fun _ => .null) (fun u hu null => ?_) fun _ _ => readable_null g₁
  · refine ⟨_, _, cleared, r.trans redirected.rewired, redirected.symmetric, fun x s => ?_,
      fun x s ne unread => ?_, fun q ne => ?_⟩
    · rw [redirected.reads?_of_all (f := fun _ => .null) sym₁, reads, Option.map_map]
      congr 1
      funext v
      by_cases hx : x = n <;> simp [hx]
    · refine (redirected.operand x s fun listed => ?_).trans (operand ne s)
      obtain ⟨w, read, hp⟩ := sym₁.mem_map_place.1 listed
      rw [reads, Option.map_eq_some_iff] at read
      obtain ⟨v, read, rfl⟩ := read
      rw [if_neg ne] at hp
      exact unread v read hp
    · rw [redirected.allUses_other ne fun _ _ => by simp [Value.node?], uses]
  · exact Value.ne_null_of_node? (sym₁.mem_allUses.1 hu).2 null

/-- Erasing a listed node detaches it and then discards it. -/
theorem Coherent.exists_detached {g : Graph} (co : g.Coherent) {f : FuncId} {n : NodeId}
    (listed : g.Lists f n) :
    ∃ h, g.eraseNode f n = (h.discard f n, .ok ()) ∧ g.Detached n h := by
  obtain ⟨node, stored⟩ := contains_iff.1 (co.owned.contains listed)
  obtain ⟨h, k, cleared, detached⟩ := co.symmetric.detached_clear stored
  have checked : (do g.checkOwned f n; g.clearOperands n) = .ok (g.clearSlots n node.slots) :=
    bind_eq_ok_iff.2 ⟨(), co.owned.checkOwned_eq_ok_iff.2 listed,
      bind_eq_ok_iff.2 ⟨node, nodeOrRefusal_eq_ok_iff.2 stored, rfl⟩⟩
  refine ⟨h, ?_, detached⟩
  rw [Graph.eraseNode, guarded_of_ok checked, cleared]

/-- A listed node is erased, and nothing else is. -/
theorem Coherent.eraseNode {g : Graph} (co : g.Coherent) {f : FuncId} {n : NodeId}
    (listed : g.Lists f n) : ∃ h, g.eraseNode f n = (h, .ok ()) ∧ Erased g [n] h := by
  obtain ⟨h, eq, d⟩ := co.exists_detached listed
  have r := d.rewired
  have co' : h.Coherent := ⟨d.symmetric, r.owned co.owned⟩
  exact ⟨h.discard f n, eq,
    (co'.erased_discard ((r.lists f n).2 listed) d.idle d.unread).of_rewired r⟩

/-- Erasing a node that the function does not list is refused. -/
theorem Owned.eraseNode_of_not_lists {g : Graph} (own : g.Owned) {f : FuncId} {n : NodeId}
    (unlisted : ¬ g.Lists f n) : ∃ e, g.eraseNode f n = (g, .error (.refused e)) := by
  cases checked : g.checkOwned f n with
  | ok a => exact absurd (own.checkOwned_eq_ok_iff.1 checked) unlisted
  | error e =>
    have failed : (do g.checkOwned f n; g.clearOperands n) = .error e := by rw [checked]; rfl
    exact ⟨e, guarded_of_error failed _⟩

theorem Coherent.eraseNode_evolves {g : Graph} (co : g.Coherent) (f : FuncId) (n : NodeId) :
    g.Evolves (g.eraseNode f n).1 := by
  by_cases listed : g.Lists f n
  · obtain ⟨h, eq, er⟩ := co.eraseNode listed
    rw [eq]
    exact er.evolves
  · obtain ⟨e, eq⟩ := co.owned.eraseNode_of_not_lists listed
    rw [eq]
    exact co.evolves

/-! ## Erasing a function -/

theorem Coherent.eraseNodes {g : Graph} (co : g.Coherent) {f : FuncId} {ns : List NodeId}
    (nodup : ns.Nodup) (listed : ∀ n ∈ ns, g.Lists f n) :
    ∃ h, eraseNodes f ns g = (h, .ok ()) ∧ Erased g ns h := by
  induction ns generalizing g with
  | nil => exact ⟨g, rfl, co.erased_nil⟩
  | cons n ns ih =>
    rw [List.nodup_cons] at nodup
    rw [List.forall_mem_cons] at listed
    obtain ⟨h, eq, first⟩ := co.eraseNode listed.1
    obtain ⟨k, eqs, rest⟩ := ih first.coherent nodup.2 fun m hm => first.lists.2
      ⟨listed.2 m hm, fun h => nodup.1 (List.mem_singleton.1 h ▸ hm)⟩
    refine ⟨k, ?_, first.cons rest⟩
    simp only [Graph.eraseNodes, eq, eqs]

theorem hasFunc_filter (g : Graph) (f f' : FuncId) :
    { g with funcs := g.funcs.filter (·.id ≠ f) }.HasFunc f' ↔ g.HasFunc f' ∧ f' ≠ f := by
  simp only [HasFunc, List.mem_map, List.mem_filter, decide_eq_true_eq]
  constructor
  · rintro ⟨func, ⟨hf, ne⟩, rfl⟩
    exact ⟨⟨func, hf, rfl⟩, ne⟩
  · rintro ⟨⟨func, hf, rfl⟩, ne⟩
    exact ⟨func, ⟨hf, ne⟩, rfl⟩

theorem lists_filter (g : Graph) (f f' : FuncId) (n : NodeId) :
    { g with funcs := g.funcs.filter (·.id ≠ f) }.Lists f' n ↔ g.Lists f' n ∧ f' ≠ f := by
  simp only [Lists, List.mem_filter, decide_eq_true_eq]
  constructor
  · rintro ⟨func, ⟨hf, ne⟩, rfl, hn⟩
    exact ⟨⟨func, hf, rfl, hn⟩, ne⟩
  · rintro ⟨⟨func, hf, rfl, hn⟩, ne⟩
    exact ⟨func, ⟨hf, ne⟩, rfl, hn⟩

/-- A function that lists nothing can be left out. -/
theorem Coherent.filter {g : Graph} (co : g.Coherent) {f : FuncId} (idle : ∀ n, ¬ g.Lists f n) :
    { g with funcs := g.funcs.filter (·.id ≠ f) }.Coherent := by
  refine ⟨⟨co.symmetric.slot, co.symmetric.record⟩, co.owned.node_id,
    co.owned.func_ids.sublist (List.filter_sublist.map _), fun {n node} stored => ?_,
    fun {f' n} listed => co.owned.listed ((lists_filter g f f' n).1 listed).1⟩
  obtain ⟨f', hf', listed⟩ := co.owned.owner stored
  exact ⟨f', hf', (lists_filter g f f' n).2 ⟨listed, fun h => idle n (h ▸ listed)⟩⟩

/-- A function is erased together with the nodes that it lists. -/
theorem Coherent.eraseFunc {g : Graph} (co : g.Coherent) {f : FuncId} (exists_ : g.HasFunc f) :
    ∃ h, g.eraseFunc f = (h, .ok ()) ∧ h.Coherent ∧
      (∀ n, h.contains n ↔ g.contains n ∧ ¬ g.Lists f n) ∧
      ∀ f', h.HasFunc f' ↔ g.HasFunc f' ∧ f' ≠ f := by
  obtain ⟨func, hf, rfl, found⟩ := co.owned.exists_func exists_
  have mem (n : NodeId) : g.Lists func.id n ↔ n ∈ func.nodes := lists_iff co.owned.func_ids hf
  obtain ⟨h, eq, er⟩ := co.eraseNodes func.roster.nodup fun n hn => (mem n).2 hn
  have idle : ∀ n, ¬ h.Lists func.id n := by
    intro n listed
    obtain ⟨listed, gone⟩ := er.lists.1 listed
    exact gone ((mem n).1 listed)
  refine ⟨_, ?_, er.coherent.filter idle, fun n => ?_, fun f' => ?_⟩
  · have eq : Graph.eraseNodes func.id func.nodes g = (h, .ok ()) := eq
    rw [Graph.eraseFunc, guarded_of_ok found, eq]
  · rw [mem]
    exact er.contains
  · rw [hasFunc_filter, er.hasFunc]

theorem Coherent.eraseFunc_evolves {g : Graph} (co : g.Coherent) (f : FuncId) :
    g.Evolves (g.eraseFunc f).1 := by
  by_cases exists_ : g.HasFunc f
  · obtain ⟨h, eq, coherent, contains, hasFunc⟩ := co.eraseFunc exists_
    rw [eq]
    exact ⟨coherent, fun stored => ((contains _).1 stored).1, fun hf => ((hasFunc _).1 hf).1⟩
  · refine co.guarded fun func found => ?_
    obtain ⟨hf, rfl⟩ := co.owned.funcOrRefusal_eq_ok_iff.1 found
    exact absurd (List.mem_map_of_mem hf) exists_

/-! ## What outlasts erasing -/

/-- A property of graphs that is kept when slots are disconnected and when nodes and functions are
discarded, whatever the graph. -/
structure OutlastsErasing (P : Graph → Prop) : Prop where
  patched : ∀ {g h}, Patched (· = .null) g h → P g → P h
  discard : ∀ {g} f n, P g → P (g.discard f n)
  funcs : ∀ {g : Graph} funcs, P g → P { g with funcs }

section

variable {P : Graph → Prop} (lasts : OutlastsErasing P) {g : Graph} (same : P g)
include lasts same

theorem OutlastsErasing.eraseNode (f : FuncId) (n : NodeId) : P (g.eraseNode f n).1 := by
  refine guarded_of_forall same fun h passed => ?_
  obtain ⟨_, -, cleared⟩ := bind_eq_ok_iff.1 passed
  obtain ⟨slots, rfl⟩ := exists_of_clearOperands cleared
  have left := lasts.patched (patched_clearUses _ n) (lasts.patched (patched_clearSlots g n slots) same)
  generalize (g.clearSlots n slots).clearUses n = outcome at left
  obtain ⟨h, e | _⟩ := outcome
  · exact left
  · exact lasts.discard f n left

theorem OutlastsErasing.eraseNodes (f : FuncId) (ns : List NodeId) : P (eraseNodes f ns g).1 := by
  induction ns generalizing g with
  | nil => exact same
  | cons n ns ih =>
    have left := lasts.eraseNode same f n
    rw [Graph.eraseNodes]
    generalize g.eraseNode f n = outcome at left
    obtain ⟨h, e | _⟩ := outcome
    · exact left
    · exact ih left

theorem OutlastsErasing.eraseFunc (f : FuncId) : P (g.eraseFunc f).1 := by
  refine guarded_of_forall same fun func _ => ?_
  have left := lasts.eraseNodes same f func.nodes
  generalize Graph.eraseNodes f func.nodes g = outcome at left
  obtain ⟨h, e | _⟩ := outcome
  · exact left
  · exact lasts.funcs _ left

end

end Graph

end Dataflow
