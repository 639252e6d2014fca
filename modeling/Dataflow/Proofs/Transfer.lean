import Dataflow.Proofs.Coherence

/-!
# Moving nodes

A range of nodes is moved in three passes: the nodes are taken off the roster of the source, put on
that of the target, and told their new parent. In between the rosters and the parents disagree; after
the last pass every moved node belongs to the target and every other node to its old owner
(`Coherent.move`), also when source and target are one function.
-/

namespace Dataflow

namespace Graph

/-! ## The three passes -/

theorem lists_foldl_remove (g : Graph) (f f' : FuncId) (nodes : List NodeId) (m : NodeId) :
    (nodes.foldl (fun g n => g.modifyRoster f (·.remove? n)) g).Lists f' m ↔
      g.Lists f' m ∧ ¬ (f' = f ∧ m ∈ nodes) := by
  induction nodes generalizing g with
  | nil => simp
  | cons n nodes ih =>
    rw [List.foldl_cons, ih, lists_remove, List.mem_cons]
    tauto

theorem ids_foldl_modifyRoster (g : Graph) (f : FuncId) (change : NodeId → Roster → Option Roster)
    (nodes : List NodeId) :
    (nodes.foldl (fun g n => g.modifyRoster f (change n)) g).funcs.map (·.id) =
      g.funcs.map (·.id) := by
  induction nodes generalizing g with
  | nil => rfl
  | cons n nodes ih => rw [List.foldl_cons, ih, ids_modifyRoster]

theorem node?_foldl_modifyRoster (g : Graph) (f : FuncId)
    (change : NodeId → Roster → Option Roster) (nodes : List NodeId) (m : NodeId) :
    (nodes.foldl (fun g n => g.modifyRoster f (change n)) g).node? m = g.node? m := by
  induction nodes generalizing g with
  | nil => rfl
  | cons n nodes ih =>
    rw [List.foldl_cons, ih]
    rfl

theorem lists_foldl_insert {g : Graph} (ids : (g.funcs.map (·.id)).Nodup) {f : FuncId}
    (exists_ : g.HasFunc f) {before? : Option NodeId} (anchor : ∀ b ∈ before?, g.Lists f b)
    (nodes : List NodeId) (f' : FuncId) (m : NodeId) :
    (nodes.foldl (fun g n => g.modifyRoster f (·.insert? n before?)) g).Lists f' m ↔
      g.Lists f' m ∨ f' = f ∧ m ∈ nodes := by
  induction nodes generalizing g with
  | nil => simp
  | cons n nodes ih =>
    have step := lists_insert ids exists_ anchor n
    rw [List.foldl_cons, ih ((ids_modifyRoster g f _).symm ▸ ids)
      ((hasFunc_modifyRoster g f f _).2 exists_) fun b hb => (step f b).2 (.inl (anchor b hb)), step,
      List.mem_cons]
    tauto

theorem node?_foldl_parent (g : Graph) (f : FuncId) (nodes : List NodeId) (m : NodeId) :
    (nodes.foldl (fun g n => g.modifyNode n ({ · with parent? := some f })) g).node? m =
      (g.node? m).map fun node => if m ∈ nodes then { node with parent? := some f } else node := by
  induction nodes generalizing g with
  | nil => simp
  | cons n nodes ih =>
    rw [List.foldl_cons, ih, node?_modifyNode]
    by_cases h : n = m
    · subst h
      cases g.node? n <;> simp
    · simp [h, Ne.symm h]

theorem funcs_foldl_modifyNode (g : Graph) (f : Node → Node) (nodes : List NodeId) :
    (nodes.foldl (fun g n => g.modifyNode n f) g).funcs = g.funcs := by
  induction nodes generalizing g with
  | nil => rfl
  | cons n nodes ih => rw [List.foldl_cons, ih, funcs_modifyNode]

/-! ## Moving -/

theorem node?_move (g : Graph) (nodes : List NodeId) (source target : FuncId)
    (before? : Option NodeId) (m : NodeId) :
    (g.move nodes source target before?).node? m =
      (g.node? m).map fun node =>
        if m ∈ nodes then { node with parent? := some target } else node := by
  rw [Graph.move, node?_foldl_parent, node?_foldl_modifyRoster, node?_foldl_modifyRoster]

theorem operand?_move (g : Graph) (nodes : List NodeId) (source target : FuncId)
    (before? : Option NodeId) (x : NodeId) (s : Slot) :
    (g.move nodes source target before?).operand? x s = g.operand? x s := by
  rw [operand?, node?_move, operand?]
  cases g.node? x with
  | none => rfl
  | some node => rw [Option.map_some]; split_ifs <;> cases s <;> rfl

theorem ids_move (g : Graph) (nodes : List NodeId) (source target : FuncId)
    (before? : Option NodeId) :
    (g.move nodes source target before?).funcs.map (·.id) = g.funcs.map (·.id) := by
  rw [Graph.move, funcs_foldl_modifyNode, ids_foldl_modifyRoster, ids_foldl_modifyRoster]

/-- The nodes of the range are off the source, and listed by the target. -/
theorem lists_move {g : Graph} (ids : (g.funcs.map (·.id)).Nodup) {nodes : List NodeId}
    {source target : FuncId} (exists_ : g.HasFunc target) {before? : Option NodeId}
    (anchor : ∀ b ∈ before?, g.Lists target b ∧ ¬ (target = source ∧ b ∈ nodes)) (f : FuncId)
    (m : NodeId) :
    (g.move nodes source target before?).Lists f m ↔
      g.Lists f m ∧ ¬ (f = source ∧ m ∈ nodes) ∨ f = target ∧ m ∈ nodes := by
  have ids' := ids_foldl_modifyRoster g source (fun n r => r.remove? n) nodes
  have anchored : ∀ b ∈ before?,
      (nodes.foldl (fun g n => g.modifyRoster source (·.remove? n)) g).Lists target b :=
    fun b hb => (lists_foldl_remove g source target nodes b).2 (anchor b hb)
  have lists := lists_foldl_insert (ids'.symm ▸ ids) (by rw [HasFunc, ids']; exact exists_) anchored
    nodes f m
  rw [← lists_foldl_remove, ← lists, Graph.move, Lists, funcs_foldl_modifyNode, Lists]

/-- Moving listed nodes makes the target their owner. -/
theorem Coherent.move {g : Graph} (co : g.Coherent) {nodes : List NodeId} {source target : FuncId}
    (listed : ∀ n ∈ nodes, g.Lists source n) (exists_ : g.HasFunc target) {before? : Option NodeId}
    (anchor : ∀ b ∈ before?, g.Lists target b ∧ ¬ (target = source ∧ b ∈ nodes)) :
    g.Evolves (g.move nodes source target before?) := by
  have own := co.owned
  have lists := lists_move own.func_ids exists_ anchor
  have node := node?_move g nodes source target before?
  have operand := operand?_move g nodes source target before?
  generalize hk : g.move nodes source target before? = k at lists node operand
  have ids : k.funcs.map (·.id) = g.funcs.map (·.id) := by rw [← hk, ids_move]
  refine ⟨⟨co.symmetric.congr operand fun p t => ?_, fun {n a} stored => ?_, ids ▸ own.func_ids,
    fun {n a} stored => ?_, fun {f n} h => ?_⟩, fun {n} stored => ?_, fun {f} hf => ?_⟩
  · rw [record?, node, record?]
    cases g.node? p with
    | none => rfl
    | some a => rw [Option.map_some]; split_ifs <;> rfl
  · rw [node, Option.map_eq_some_iff] at stored
    obtain ⟨old, hold, rfl⟩ := stored
    have id := own.node_id hold
    split_ifs <;> exact id
  · rw [node, Option.map_eq_some_iff] at stored
    obtain ⟨old, hold, rfl⟩ := stored
    split_ifs with moved
    · exact ⟨target, rfl, (lists target n).2 (.inr ⟨rfl, moved⟩)⟩
    · obtain ⟨f, parent, h⟩ := own.owner hold
      exact ⟨f, parent, (lists f n).2 (.inl ⟨h, fun h => moved h.2⟩)⟩
  · rw [node]
    rcases (lists f n).1 h with ⟨h, kept⟩ | ⟨rfl, moved⟩
    · obtain ⟨old, hold, parent⟩ := own.listed h
      -- the source was the only function that listed a moved node
      have kept : n ∉ nodes := fun moved => kept ⟨own.owner_unique h (listed n moved), moved⟩
      exact ⟨old, by rw [hold, Option.map_some, if_neg kept], parent⟩
    · obtain ⟨old, hold, -⟩ := own.listed (listed n moved)
      exact ⟨_, by rw [hold, Option.map_some, if_pos moved], rfl⟩
  · rw [contains_eq, node, Option.isSome_map] at stored
    rwa [contains_eq]
  · rwa [HasFunc, ← ids]

/-- Nodes can be moved if they form a range of the source and the target lists the anchor, which is
not one of them. -/
theorem Owned.checkMove_eq_ok_iff {g : Graph} (own : g.Owned) {source target : FuncId}
    {first last : NodeId} {before? : Option NodeId} {nodes : List NodeId} :
    g.checkMove source first last target before? = .ok nodes ↔
      ∃ giver ∈ g.funcs, ∃ taker ∈ g.funcs, giver.id = source ∧ taker.id = target ∧
        giver.roster.range? first last = some nodes ∧
        ∀ b ∈ before?, b ∈ taker.nodes ∧ ¬ (source = target ∧ b ∈ nodes) := by
  constructor
  · intro checked
    obtain ⟨giver, hgiver, checked⟩ := bind_eq_ok_iff.1 checked
    obtain ⟨taker, htaker, checked⟩ := bind_eq_ok_iff.1 checked
    dsimp only at checked
    obtain ⟨hg, hs⟩ := own.funcOrRefusal_eq_ok_iff.1 hgiver
    obtain ⟨ht, ht'⟩ := own.funcOrRefusal_eq_ok_iff.1 htaker
    refine ⟨giver, hg, taker, ht, hs, ht', ?_⟩
    split_ifs at checked
    · cases found : giver.roster.range? first last with
      | none =>
        rw [found] at checked
        cases checked
      | some range =>
        rw [found] at checked
        cases before? with
        | none =>
          cases checked
          exact ⟨rfl, fun b hb => (by cases hb)⟩
        | some b =>
          dsimp only at checked
          split_ifs at checked with hb inside <;> cases checked
          refine ⟨rfl, fun b' hb' => ?_⟩
          obtain rfl := Option.some.inj hb'
          exact ⟨taker.roster.contains_iff.1 hb, inside⟩
    all_goals cases checked
  · rintro ⟨giver, hg, taker, ht, hs, ht', found, anchor⟩
    have ends : first ∈ giver.roster.toList ∧ last ∈ giver.roster.toList := by
      obtain ⟨front, back, -, head, tail⟩ := giver.roster.range?_eq_some_iff.1 found
      exact ⟨Roster.mem_of_mem_range? found (List.mem_of_head? head),
        Roster.mem_of_mem_range? found (List.mem_of_getLast? tail)⟩
    simp only [checkMove, own.funcOrRefusal_eq_ok_iff.2 ⟨hg, hs⟩,
      own.funcOrRefusal_eq_ok_iff.2 ⟨ht, ht'⟩, giver.roster.contains_iff.2 ends.1,
      giver.roster.contains_iff.2 ends.2, found, bind, Except.bind, pure, Except.pure, if_true]
    cases before? with
    | none => rfl
    | some b =>
      obtain ⟨hb, outside⟩ := anchor b rfl
      simp only [taker.roster.contains_iff.2 hb, if_true, outside, if_false]

theorem Owned.checkMove {g : Graph} (own : g.Owned) {source target : FuncId} {first last : NodeId}
    {before? : Option NodeId} {nodes : List NodeId}
    (checked : g.checkMove source first last target before? = .ok nodes) :
    (∀ n ∈ nodes, g.Lists source n) ∧ g.HasFunc target ∧
      ∀ b ∈ before?, g.Lists target b ∧ ¬ (target = source ∧ b ∈ nodes) := by
  obtain ⟨giver, hg, taker, ht, rfl, rfl, found, anchor⟩ := own.checkMove_eq_ok_iff.1 checked
  refine ⟨fun n hn => ⟨giver, hg, rfl, Roster.mem_of_mem_range? found hn⟩, List.mem_map_of_mem ht,
    fun b hb => ?_⟩
  obtain ⟨listed, outside⟩ := anchor b hb
  exact ⟨⟨taker, ht, rfl, listed⟩, fun h => outside ⟨h.1.symm, h.2⟩⟩

theorem Coherent.moveRange {g h : Graph} (co : g.Coherent) {source target : FuncId}
    {first last : NodeId} {before? : Option NodeId} {moved : Nat}
    (done : g.moveRange source first last target before? = .ok (h, moved)) : g.Evolves h := by
  obtain ⟨nodes, checked, done⟩ := bind_eq_ok_iff.1 done
  cases done
  obtain ⟨listed, exists_, anchor⟩ := co.owned.checkMove checked
  exact co.move listed exists_ anchor

end Graph

end Dataflow
