import Dataflow.Graph.Move
import Dataflow.Proofs.RosterOrder
import Dataflow.Proofs.Symmetry
import Mathlib.Algebra.GroupWithZero.Nat

/-!
# Ownership

Every stored node belongs to one function, which is its parent and lists it; functions list nothing
else (`Graph.Owned`). Rosters have no repetitions, so the numbers of listed nodes add up to the
number of stored ones (`Owned.nodeCount_eq`). Storing, discarding and moving nodes keep ownership.
-/

namespace Dataflow

namespace Graph

/-- The function `f` exists. -/
def HasFunc (g : Graph) (f : FuncId) : Prop := f ∈ g.funcs.map (·.id)

/-- The function `f` lists the node `n`. -/
def Lists (g : Graph) (f : FuncId) (n : NodeId) : Prop :=
  ∃ func ∈ g.funcs, func.id = f ∧ n ∈ func.nodes

/-- Nodes are stored under their own identities, and the function that lists a node is the one that
the node names as its parent. -/
structure Owned (g : Graph) : Prop where
  node_id : ∀ {n node}, g.node? n = some node → node.id = n
  func_ids : (g.funcs.map (·.id)).Nodup
  owner : ∀ {n node}, g.node? n = some node → ∃ f, node.parent? = some f ∧ g.Lists f n
  listed : ∀ {f n}, g.Lists f n → ∃ node, g.node? n = some node ∧ node.parent? = some f

theorem Lists.hasFunc {g : Graph} {f : FuncId} {n : NodeId} (h : g.Lists f n) : g.HasFunc f := by
  obtain ⟨func, hf, rfl, -⟩ := h
  exact List.mem_map_of_mem hf

theorem func_unique {g : Graph} (ids : (g.funcs.map (·.id)).Nodup) {a b : Func} (ha : a ∈ g.funcs)
    (hb : b ∈ g.funcs) (same : a.id = b.id) : a = b :=
  List.inj_on_of_nodup_map ids ha hb same

theorem lists_iff {g : Graph} (ids : (g.funcs.map (·.id)).Nodup) {func : Func}
    (hf : func ∈ g.funcs) {n : NodeId} : g.Lists func.id n ↔ n ∈ func.nodes := by
  constructor
  · rintro ⟨other, ho, same, hn⟩
    rwa [func_unique ids hf ho same.symm]
  · exact fun hn => ⟨func, hf, rfl, hn⟩

theorem Owned.contains {g : Graph} (own : g.Owned) {f : FuncId} {n : NodeId} (h : g.Lists f n) :
    g.contains n := by
  obtain ⟨node, stored, -⟩ := own.listed h
  exact contains_of_node? stored

/-- No node is listed by two functions. -/
theorem Owned.owner_unique {g : Graph} (own : g.Owned) {f f' : FuncId} {n : NodeId}
    (h : g.Lists f n) (h' : g.Lists f' n) : f = f' := by
  obtain ⟨node, stored, parent⟩ := own.listed h
  obtain ⟨node', stored', parent'⟩ := own.listed h'
  obtain rfl := Option.some.inj (stored.symm.trans stored')
  exact Option.some.inj (parent.symm.trans parent')

theorem Owned.func?_eq_some_iff {g : Graph} (own : g.Owned) {f : FuncId} {func : Func} :
    g.func? f = some func ↔ func ∈ g.funcs ∧ func.id = f := by
  unfold func?
  constructor
  · intro h
    exact ⟨List.mem_of_find?_eq_some h, by simpa using List.find?_some h⟩
  · rintro ⟨hf, rfl⟩
    cases h : g.funcs.find? (·.id = func.id) with
    | none => simpa using List.find?_eq_none.1 h func hf
    | some other =>
      have same : other.id = func.id := by simpa using List.find?_some h
      rw [func_unique own.func_ids (List.mem_of_find?_eq_some h) hf same]

/-- Functions are found as long as they exist. -/
theorem Owned.exists_func {g : Graph} (own : g.Owned) {f : FuncId} (h : g.HasFunc f) :
    ∃ func ∈ g.funcs, func.id = f ∧ g.funcOrRefusal f = .ok func := by
  obtain ⟨func, hf, rfl⟩ := List.mem_map.1 h
  refine ⟨func, hf, rfl, ?_⟩
  rw [funcOrRefusal, own.func?_eq_some_iff.2 ⟨hf, rfl⟩]

theorem Owned.funcOrRefusal_eq_ok_iff {g : Graph} (own : g.Owned) {f : FuncId} {func : Func} :
    g.funcOrRefusal f = .ok func ↔ func ∈ g.funcs ∧ func.id = f := by
  rw [← own.func?_eq_some_iff, funcOrRefusal]
  cases g.func? f <;> simp

theorem funcOrRefusal_eq_error_iff {g : Graph} {f : FuncId} {e : Refusal} :
    g.funcOrRefusal f = .error e ↔ ¬ g.HasFunc f ∧ e = .unknownFunc f := by
  have missing : g.func? f = none ↔ ¬ g.HasFunc f := by
    simp [func?, HasFunc, List.find?_eq_none]
  rw [← missing, funcOrRefusal]
  cases g.func? f <;> simp [eq_comm]

/-! ## Counting -/

/-- The stored nodes are those that the functions list, each listed once. -/
theorem Owned.keys_perm {g : Graph} (own : g.Owned) :
    g.nodes.keys.Perm (g.funcs.flatMap Func.nodes) := by
  refine (List.perm_ext_iff_of_nodup Std.ExtTreeMap.nodup_keys ?_).2 fun n => ?_
  · rw [List.nodup_flatMap]
    refine ⟨fun func _ => func.roster.nodup, ?_⟩
    have ids := own.func_ids
    rw [List.Nodup, List.pairwise_map] at ids
    refine ids.imp_of_mem fun {a b} ha hb ne n hna hnb => ne ?_
    exact own.owner_unique ⟨a, ha, rfl, hna⟩ ⟨b, hb, rfl, hnb⟩
  · have key : n ∈ g.nodes.keys ↔ g.contains n := by
      rw [Std.ExtTreeMap.mem_keys]
      rfl
    rw [key, contains_iff, List.mem_flatMap]
    constructor
    · rintro ⟨node, stored⟩
      obtain ⟨f, -, func, hf, -, hn⟩ := own.owner stored
      exact ⟨func, hf, hn⟩
    · rintro ⟨func, hf, hn⟩
      obtain ⟨node, stored, -⟩ := own.listed ⟨func, hf, rfl, hn⟩
      exact ⟨node, stored⟩

theorem Owned.nodeCount_eq {g : Graph} (own : g.Owned) :
    g.nodeCount = (g.funcs.map (·.roster.size)).sum := by
  have lengths : g.nodes.keys.length = g.nodeCount := Std.ExtTreeMap.length_keys
  rw [← lengths, own.keys_perm.length_eq, List.length_flatMap]
  congr 1
  exact List.map_congr_left fun func _ => func.roster.size_eq.symm

/-! ## Changing rosters -/

theorem ids_modifyRoster (g : Graph) (f : FuncId) (change : Roster → Option Roster) :
    (g.modifyRoster f change).funcs.map (·.id) = g.funcs.map (·.id) := by
  rw [modifyRoster, List.map_map]
  refine List.map_congr_left fun func _ => ?_
  rw [Function.comp_apply]
  split_ifs <;> rfl

theorem hasFunc_modifyRoster (g : Graph) (f f' : FuncId) (change : Roster → Option Roster) :
    (g.modifyRoster f change).HasFunc f' ↔ g.HasFunc f' := by
  rw [HasFunc, ids_modifyRoster, HasFunc]

theorem lists_modifyRoster (g : Graph) (f f' : FuncId) (change : Roster → Option Roster)
    (n : NodeId) :
    (g.modifyRoster f change).Lists f' n ↔ ∃ func ∈ g.funcs, func.id = f' ∧
      n ∈ (if func.id = f then (change func.roster).getD func.roster else func.roster).toList := by
  simp only [Lists, modifyRoster, List.mem_map]
  constructor
  · rintro ⟨_, ⟨func, hf, rfl⟩, hid, hn⟩
    refine ⟨func, hf, ?_, ?_⟩ <;> split_ifs at hid hn ⊢ with h <;> first | exact hid | exact hn
  · rintro ⟨func, hf, hid, hn⟩
    refine ⟨_, ⟨func, hf, rfl⟩, ?_, ?_⟩ <;> split_ifs at hn ⊢ with h <;> first | exact hid | exact hn

/-- A node taken off a roster is listed no more. -/
theorem lists_remove (g : Graph) (f f' : FuncId) (n m : NodeId) :
    (g.modifyRoster f (·.remove? n)).Lists f' m ↔ g.Lists f' m ∧ ¬ (f' = f ∧ m = n) := by
  rw [lists_modifyRoster]
  constructor
  · rintro ⟨func, hf, rfl, hm⟩
    split_ifs at hm with h
    · rw [Roster.toList_remove?, List.mem_filter, decide_eq_true_eq] at hm
      exact ⟨⟨func, hf, rfl, hm.1⟩, fun h => hm.2 h.2⟩
    · exact ⟨⟨func, hf, rfl, hm⟩, fun h' => h h'.1⟩
  · rintro ⟨⟨func, hf, rfl, hm⟩, ne⟩
    refine ⟨func, hf, rfl, ?_⟩
    split_ifs with h
    · rw [Roster.toList_remove?, List.mem_filter, decide_eq_true_eq]
      exact ⟨hm, fun h' => ne ⟨h, h'⟩⟩
    · exact hm

/-- A node put on a roster, before a node listed there or at the end, is listed from then on. -/
theorem lists_insert {g : Graph} (ids : (g.funcs.map (·.id)).Nodup) {f : FuncId}
    (exists_ : g.HasFunc f) {before? : Option NodeId} (anchor : ∀ b ∈ before?, g.Lists f b)
    (n : NodeId) (f' : FuncId) (m : NodeId) :
    (g.modifyRoster f (·.insert? n before?)).Lists f' m ↔ g.Lists f' m ∨ f' = f ∧ m = n := by
  obtain ⟨func, hf, rfl⟩ := List.mem_map.1 exists_
  have inserted : ∀ m, m ∈ ((func.roster.insert? n before?).getD func.roster).toList ↔
      m = n ∨ m ∈ func.nodes := by
    intro m
    by_cases listed : n ∈ func.roster.toList
    · rw [Roster.insert?_of_mem listed, Option.getD_none]
      exact ⟨.inr, Or.rec (fun h => h ▸ listed) id⟩
    · obtain ⟨r, hr, mem⟩ := Roster.mem_insert? listed fun b hb =>
        (lists_iff ids hf).1 (anchor b hb)
      rw [hr, Option.getD_some, mem]
      rfl
  rw [lists_modifyRoster]
  constructor
  · rintro ⟨other, ho, rfl, hm⟩
    split_ifs at hm with h
    · obtain rfl := func_unique ids ho hf h
      rcases (inserted m).1 hm with rfl | hm
      · exact .inr ⟨rfl, rfl⟩
      · exact .inl ⟨other, ho, rfl, hm⟩
    · exact .inl ⟨other, ho, rfl, hm⟩
  · rintro (⟨other, ho, rfl, hm⟩ | ⟨rfl, rfl⟩)
    · refine ⟨other, ho, rfl, ?_⟩
      split_ifs with h
      · obtain rfl := func_unique ids ho hf h
        exact (inserted m).2 (.inr hm)
      · exact hm
    · refine ⟨func, hf, rfl, ?_⟩
      rw [if_pos rfl]
      exact (inserted m).2 (.inl rfl)

/-! ## Editing operands -/

/-- Ownership is a matter of identities, parents and rosters. -/
theorem Owned.congr {g h : Graph} (own : g.Owned) (funcs : h.funcs = g.funcs)
    (nodes : ∀ n, (h.node? n).map (fun x => (x.id, x.parent?)) =
      (g.node? n).map fun x => (x.id, x.parent?)) : h.Owned := by
  have lists (f : FuncId) (n : NodeId) : h.Lists f n ↔ g.Lists f n := by rw [Lists, funcs, Lists]
  have same {n : NodeId} {a : Node} {k l : Graph} (stored : k.node? n = some a)
      (eq : (k.node? n).map (fun x => (x.id, x.parent?)) =
        (l.node? n).map fun x => (x.id, x.parent?)) :
      ∃ b, l.node? n = some b ∧ b.id = a.id ∧ b.parent? = a.parent? := by
    rw [stored, Option.map_some, eq_comm, Option.map_eq_some_iff] at eq
    obtain ⟨b, hb, ids⟩ := eq
    rw [Prod.mk.injEq] at ids
    exact ⟨b, hb, ids⟩
  refine ⟨fun stored => ?_, funcs ▸ own.func_ids, fun {n node} stored => ?_, fun {f n} listed => ?_⟩
  · obtain ⟨b, hb, id, -⟩ := same stored (nodes _)
    rw [← id, own.node_id hb]
  · obtain ⟨b, hb, -, parent⟩ := same stored (nodes _)
    obtain ⟨f, hf, listed⟩ := own.owner hb
    exact ⟨f, parent ▸ hf, (lists f n).2 listed⟩
  · obtain ⟨b, hb, parent⟩ := own.listed ((lists f n).1 listed)
    obtain ⟨a, ha, -, eq⟩ := same hb (nodes n).symm
    exact ⟨a, ha, eq.trans parent⟩

theorem Rewired.owned {g h : Graph} (r : g.Rewired h) (own : g.Owned) : h.Owned := by
  refine own.congr r.funcs fun n => ?_
  have same := congrArg (Option.map fun x : Node => (x.id, x.parent?)) (r.bare n)
  rwa [Option.map_map, Option.map_map] at same

theorem Rewired.lists {g h : Graph} (r : g.Rewired h) (f : FuncId) (n : NodeId) :
    h.Lists f n ↔ g.Lists f n := by
  rw [Lists, r.funcs, Lists]

theorem Rewired.hasFunc {g h : Graph} (r : g.Rewired h) (f : FuncId) :
    h.HasFunc f ↔ g.HasFunc f := by
  rw [HasFunc, r.funcs, HasFunc]

/-! ## Storing and discarding -/

/-- Storing a node under a new identity gives it an owner. -/
theorem Owned.store {g : Graph} (own : g.Owned) {f : FuncId} (exists_ : g.HasFunc f) {n : Node}
    (absent : g.node? n.id = none) (readable : ∀ e ∈ n.operands, g.Readable e.2)
    {before? : Option NodeId} (anchor : ∀ b ∈ before?, g.Lists f b) :
    (g.store f n before?).Owned := by
  obtain ⟨k, r, eq⟩ := exists_rewired_store absent readable f before?
  rw [eq]
  have funcs : k.funcs = g.funcs := r.funcs
  have anchored : ∀ b ∈ before?, k.Lists f b := fun b hb => (r.lists f b).2 (anchor b hb)
  have lists := lists_insert (by rw [funcs]; exact own.func_ids) ((r.hasFunc f).2 exists_) anchored n.id
  have before (f' : FuncId) (m : NodeId) : k.Lists f' m ↔ g.Lists f' m := r.lists f' m
  refine ⟨fun {m node} stored => ?_, ?_, fun {m node} stored => ?_, fun {f' m} listed => ?_⟩
  · obtain ⟨old, hold, same⟩ := r.exists_node stored
    have id : old.id = node.id := (Node.same_of_bare same).1
    rw [node?_withNode] at hold
    split_ifs at hold with h
    · obtain rfl := Option.some.inj hold
      exact id.symm.trans h
    · rw [← id, own.node_id hold]
  · rw [ids_modifyRoster, funcs]
    exact own.func_ids
  · obtain ⟨old, hold, same⟩ := r.exists_node stored
    have parent : old.parent? = node.parent? := (Node.same_of_bare same).2.2.2.1
    rw [node?_withNode] at hold
    split_ifs at hold with h
    · obtain rfl := Option.some.inj hold
      exact ⟨f, parent.symm, (lists f m).2 (.inr ⟨rfl, h.symm⟩)⟩
    · obtain ⟨f', hf', listed⟩ := own.owner hold
      exact ⟨f', parent ▸ hf', (lists f' m).2 (.inl ((before f' m).2 listed))⟩
  · have stored : ∃ old, (g.withNode { n with parent? := some f }).node? m = some old ∧
        old.parent? = some f' := by
      rw [node?_withNode]
      rcases (lists f' m).1 listed with listed | ⟨rfl, rfl⟩
      · obtain ⟨old, hold, parent⟩ := own.listed ((before f' m).1 listed)
        rw [if_neg]
        · exact ⟨old, hold, parent⟩
        · rintro rfl
          rw [absent] at hold
          cases hold
      · exact ⟨_, if_pos rfl, rfl⟩
    obtain ⟨old, hold, parent⟩ := stored
    obtain ⟨node, hnode, same⟩ := r.symm.exists_node hold
    exact ⟨node, hnode, (Node.same_of_bare same).2.2.2.1.trans parent⟩

theorem lists_discard (g : Graph) (f f' : FuncId) (n m : NodeId) :
    (g.discard f n).Lists f' m ↔ g.Lists f' m ∧ ¬ (f' = f ∧ m = n) :=
  lists_remove g f f' n m

theorem Owned.discard {g : Graph} (own : g.Owned) {f : FuncId} {n : NodeId} (h : g.Lists f n) :
    (g.discard f n).Owned := by
  refine ⟨fun {m node} stored => ?_, ?_, fun {m node} stored => ?_, fun {f' m} listed => ?_⟩
  · rw [node?_discard] at stored
    split_ifs at stored
    exact own.node_id stored
  · exact (ids_modifyRoster g f (·.remove? n)).symm ▸ own.func_ids
  · rw [node?_discard] at stored
    split_ifs at stored with hm
    obtain ⟨f', hf', listed⟩ := own.owner stored
    exact ⟨f', hf', (lists_discard g f f' n m).2 ⟨listed, fun e => hm e.2.symm⟩⟩
  · obtain ⟨listed, ne⟩ := (lists_discard g f f' n m).1 listed
    rw [node?_discard, if_neg]
    · exact own.listed listed
    · rintro rfl
      exact ne ⟨own.owner_unique listed h, rfl⟩

/-! ## Adding a function -/

theorem hasFunc_addFunc (g : Graph) (f f' : FuncId) (name : String) :
    (g.addFunc f name).HasFunc f' ↔ g.HasFunc f' ∨ f' = f := by
  simp only [HasFunc, addFunc, List.map_append, List.mem_append, List.map_singleton,
    List.mem_singleton]

theorem lists_addFunc (g : Graph) (f f' : FuncId) (name : String) (n : NodeId) :
    (g.addFunc f name).Lists f' n ↔ g.Lists f' n := by
  simp only [Lists, addFunc, List.mem_append, List.mem_singleton]
  constructor
  · rintro ⟨func, hf | rfl, rfl, hn⟩
    · exact ⟨func, hf, rfl, hn⟩
    · cases hn
  · rintro ⟨func, hf, rfl, hn⟩
    exact ⟨func, .inl hf, rfl, hn⟩

theorem Owned.addFunc {g : Graph} (own : g.Owned) {f : FuncId} (fresh : ¬ g.HasFunc f)
    (name : String) : (g.addFunc f name).Owned := by
  refine ⟨own.node_id, ?_, fun {n node} stored => ?_, fun {f' n} listed => ?_⟩
  · rw [Graph.addFunc, List.map_append, List.nodup_append]
    refine ⟨own.func_ids, List.nodup_singleton _, fun a ha b hb => ?_⟩
    obtain rfl := List.mem_singleton.1 hb
    rintro rfl
    exact fresh ha
  · obtain ⟨f', parent, listed⟩ := own.owner stored
    exact ⟨f', parent, (lists_addFunc g f f' name n).2 listed⟩
  · exact own.listed ((lists_addFunc g f f' name n).1 listed)

end Graph

end Dataflow
