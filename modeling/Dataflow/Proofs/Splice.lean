import Dataflow.Proofs.Teardown
import Dataflow.Proofs.Transfer

/-!
# Moving as splicing

Seen as lists of nodes, moving a range cuts it out of the list of the source and puts it, in one piece
and in its order, into the list of the target (`Owned.view_move`). Which cells the slabs behind the
lists give up and take meanwhile cannot be seen. A range can be moved exactly if its first node does
not come after its last one and the anchor is listed by the target outside of the range.
-/

namespace Dataflow

/-! ## Stretches of a list -/

section Stretch

variable {front range back : List NodeId} {first last b : NodeId}

/-- The nodes of a stretch are those at its places. -/
theorem mem_iff_idxOf (nodup : (front ++ range ++ back).Nodup) :
    b ∈ range ↔ front.length ≤ (front ++ range ++ back).idxOf b ∧
      (front ++ range ++ back).idxOf b < front.length + range.length := by
  rw [List.append_assoc, List.nodup_append] at nodup
  rw [List.append_assoc, List.idxOf_append, List.idxOf_append]
  by_cases hf : b ∈ front
  · have before := List.idxOf_lt_length_of_mem hf
    have outside : b ∉ range := fun hr => nodup.2.2 b hf b (List.mem_append_left _ hr) rfl
    simp only [outside, hf, if_true, false_iff]
    omega
  · by_cases hr : b ∈ range
    · have inside := List.idxOf_lt_length_of_mem hr
      simp only [hr, hf, if_true, if_false, true_iff]
      omega
    · simp only [hr, hf, if_false, false_iff]
      omega

theorem idxOf_head (nodup : (front ++ range ++ back).Nodup) (head : range.head? = some first) :
    (front ++ range ++ back).idxOf first = front.length := by
  obtain ⟨rest, rfl⟩ := List.head?_eq_some_iff.1 head
  rw [List.append_assoc, List.nodup_append] at nodup
  have outside : first ∉ front := fun hf => nodup.2.2 first hf first (List.mem_cons_self ..) rfl
  rw [List.append_assoc, List.idxOf_append_of_notMem outside, List.cons_append, List.idxOf_cons_self,
    Nat.add_zero]

theorem idxOf_getLast (nodup : (front ++ range ++ back).Nodup)
    (tail : range.getLast? = some last) :
    (front ++ range ++ back).idxOf last + 1 = front.length + range.length := by
  obtain ⟨init, rfl⟩ := List.getLast?_eq_some_iff.1 tail
  have assoc : front ++ (init ++ [last]) ++ back = front ++ init ++ [last] ++ back := by simp
  rw [assoc] at nodup ⊢
  rw [@idxOf_head (front ++ init) [last] back last nodup rfl, List.length_append, List.length_append,
    List.length_singleton, Nat.add_assoc]

/-- The nodes of a stretch are those that come neither before its first nor after its last node. -/
theorem mem_stretch_iff (nodup : (front ++ range ++ back).Nodup) (head : range.head? = some first)
    (tail : range.getLast? = some last) :
    b ∈ range ↔ (front ++ range ++ back).idxOf first ≤ (front ++ range ++ back).idxOf b ∧
      (front ++ range ++ back).idxOf b ≤ (front ++ range ++ back).idxOf last := by
  have start := idxOf_head nodup head
  have stop := idxOf_getLast nodup tail
  rw [mem_iff_idxOf nodup]
  omega

/-- Without its stretch a list consists of what is before and after it. -/
theorem filter_notMem_eq (nodup : (front ++ range ++ back).Nodup) :
    (front ++ range ++ back).filter (· ∉ range) = front ++ back := by
  rw [List.nodup_append, List.nodup_append] at nodup
  obtain ⟨⟨-, -, before⟩, -, after⟩ := nodup
  have none : range.filter (· ∉ range) = [] := by simp
  have front_eq : front.filter (· ∉ range) = front := List.filter_eq_self.2 fun n hn =>
    decide_eq_true fun hn' => before n hn n hn' rfl
  have back_eq : back.filter (· ∉ range) = back := List.filter_eq_self.2 fun n hn =>
    decide_eq_true fun hn' => after n (List.mem_append_right _ hn') n hn rfl
  rw [List.filter_append, List.filter_append, none, front_eq, back_eq, List.append_nil]

/-- There is a stretch between two nodes of a list exactly if they come in this order. -/
theorem exists_stretch_iff {l : List NodeId} (nodup : l.Nodup) :
    (∃ range front back, l = front ++ range ++ back ∧ range.head? = some first ∧
      range.getLast? = some last) ↔ first ∈ l ∧ last ∈ l ∧ l.idxOf first ≤ l.idxOf last := by
  constructor
  · rintro ⟨range, front, back, rfl, head, tail⟩
    have start := idxOf_head nodup head
    have stop := idxOf_getLast nodup tail
    have inside : 0 < range.length := List.length_pos_of_mem (List.mem_of_head? head)
    refine ⟨?_, ?_, by omega⟩
    · simp [List.mem_of_head? head]
    · simp [List.mem_of_getLast? tail]
  · rintro ⟨hfirst, hlast, forward⟩
    obtain ⟨front, rest, rfl⟩ := List.append_of_mem hfirst
    have start := @idxOf_head front (first :: rest) [] first (by simpa using nodup) rfl
    rw [List.append_nil] at start
    have later : last ∈ first :: rest := by
      refine (List.mem_append.1 hlast).resolve_left fun early => ?_
      have early' := List.idxOf_lt_length_of_mem early
      rw [List.idxOf_append_of_mem early] at forward
      omega
    obtain ⟨init, back, split⟩ := List.append_of_mem later
    refine ⟨init ++ [last], front, back, by simp [split], ?_, by simp⟩
    have heads := congrArg List.head? split
    cases init <;> simpa using heads.symm

end Stretch

/-- The list with `range` put in right before `before?`, or at the end. -/
def spliced (l range : List NodeId) : Option NodeId → List NodeId
  | none => l ++ range
  | some b => l.takeWhile (· ≠ b) ++ range ++ l.dropWhile (· ≠ b)

/-- What is put in before the first occurrence of a node. -/
theorem spliced_some {a c : List NodeId} {b : NodeId} (first : b ∉ a) (range : List NodeId) :
    spliced (a ++ b :: c) range (some b) = a ++ range ++ b :: c := by
  have passed : ∀ n ∈ a, decide (n ≠ b) = true := fun n hn =>
    decide_eq_true fun same => first (same ▸ hn)
  rw [spliced, List.takeWhile_append_of_pos passed, List.dropWhile_append_of_pos passed]
  simp

/-- The anchor, if any, divides the list at the place of the splice. -/
theorem exists_spliced_eq {l : List NodeId} {before? : Option NodeId} (anchor : ∀ b ∈ before?, b ∈ l) :
    ∃ a c, l = a ++ c ∧ c.head? = before? ∧ ∀ range, spliced l range before? = a ++ range ++ c := by
  cases before? with
  | none => exact ⟨l, [], (List.append_nil l).symm, rfl, fun range => (List.append_nil _).symm⟩
  | some b =>
    obtain ⟨a, c, rfl, first⟩ := List.eq_append_cons_of_mem (anchor b rfl)
    exact ⟨a, b :: c, rfl, rfl, spliced_some first⟩

/-- What is put in right before the head of `c`, or at the end if `c` is empty. -/
theorem spliced_head? {a c : List NodeId} (nodup : (a ++ c).Nodup) (range : List NodeId) :
    spliced (a ++ c) range c.head? = a ++ range ++ c := by
  cases c with
  | nil => rw [List.append_nil, List.append_nil, List.head?_nil, spliced]
  | cons b c =>
    rw [List.nodup_middle, List.nodup_cons, List.mem_append, not_or] at nodup
    exact spliced_some nodup.1.1 range

/-- A function, as it can be seen, when `range` has been moved from between `front` and `back`. -/
def Func.View.moved (front range back : List NodeId) (source target : FuncId)
    (before? : Option NodeId) (v : Func.View) : Func.View :=
  let rest := if v.id = source then front ++ back else v.nodes
  { v with nodes := if v.id = target then spliced rest range before? else rest }

theorem Func.moved_view (front range back : List NodeId) (source target : FuncId)
    (before? : Option NodeId) (f : Func) :
    f.view.moved front range back source target before? =
      let rest := if f.id = source then front ++ back else f.nodes
      ⟨f.id, f.name, if f.id = target then spliced rest range before? else rest⟩ := rfl

namespace Graph

/-! ## Moving -/

/-- Changing the roster of a function for one node after the other. -/
theorem funcs_foldl_modifyRoster (g : Graph) (f : FuncId) (change : NodeId → Roster → Option Roster)
    (nodes : List NodeId) :
    (nodes.foldl (fun g n => g.modifyRoster f (change n)) g).funcs = g.funcs.map fun func =>
      if func.id = f then
        { func with roster := nodes.foldl (fun r n => (change n r).getD r) func.roster }
      else func := by
  induction nodes generalizing g with
  | nil => simp
  | cons n nodes ih =>
    rw [List.foldl_cons, ih, modifyRoster, List.map_map]
    refine List.map_congr_left fun func _ => ?_
    by_cases same : func.id = f <;> simp [same]

/-- After a move the source lists the rest of its nodes, and the target the range in one piece. -/
theorem Owned.view_move {g : Graph} (own : g.Owned) {giver taker : Func} (hg : giver ∈ g.funcs)
    (ht : taker ∈ g.funcs) {front range back : List NodeId}
    (split : giver.nodes = front ++ range ++ back) {before? : Option NodeId}
    (anchor : ∀ b ∈ before?, b ∈ taker.nodes ∧ ¬ (giver.id = taker.id ∧ b ∈ range)) :
    (g.move range giver.id taker.id before?).view.funcs =
      g.view.funcs.map (·.moved front range back giver.id taker.id before?) := by
  have nodup : (front ++ range ++ back).Nodup := split ▸ giver.roster.nodup
  have listed : ∀ n ∈ range, g.Lists giver.id n := fun n hn =>
    ⟨giver, hg, rfl, split ▸ List.mem_append_left _ (List.mem_append_right _ hn)⟩
  simp only [view, move, funcs_foldl_modifyNode, funcs_foldl_modifyRoster, List.map_map]
  refine List.map_congr_left fun func hf => ?_
  simp only [Function.comp_apply, Func.moved_view]
  -- the function when the range has been taken off the source
  generalize left : (if func.id = giver.id then _ else func : Func) = cut
  have same : cut.id = func.id ∧ cut.name = func.name ∧
      cut.nodes = if func.id = giver.id then front ++ back else func.nodes := by
    rw [← left]
    split_ifs with here
    · obtain rfl := func_unique own.func_ids hf hg here
      refine ⟨rfl, rfl, (Roster.toList_foldl_remove? func.roster range).trans ?_⟩
      exact (congrArg _ split).trans (filter_notMem_eq nodup)
    · exact ⟨rfl, rfl, rfl⟩
  obtain ⟨id, name, nodes⟩ := same
  rw [← nodes, ← id, ← name]
  split_ifs with here
  · have mem (n : NodeId) :
        n ∈ cut.nodes ↔ n ∈ func.nodes ∧ ¬ (giver.id = func.id ∧ n ∈ range) := by
      rw [nodes]
      split_ifs with same
      · obtain rfl := func_unique own.func_ids hf hg same
        rw [← filter_notMem_eq nodup, ← split, List.mem_filter, decide_eq_true_eq]
        simp
      · simp [Ne.symm same]
    obtain rfl := func_unique own.func_ids hf ht (id.symm.trans here)
    obtain ⟨a, c, at_, rfl, splice⟩ := exists_spliced_eq fun b hb => (mem b).2 (anchor b hb)
    have fresh : ∀ n ∈ range, n ∉ a ++ c := fun n hn hn' => by
      obtain ⟨hn', outside⟩ := (mem n).1 (at_ ▸ hn')
      exact outside ⟨own.owner_unique (listed n hn) ⟨func, hf, rfl, hn'⟩, hn⟩
    have order := Roster.toList_foldl_insert? (List.nodup_append.1 (List.nodup_append.1 nodup).1).2.1
      at_ fresh
    rw [splice, ← order]
    rfl
  · rfl

/-- When a range can be moved. -/
theorem Owned.exists_moveRange_iff {g : Graph} (own : g.Owned) {source target : FuncId}
    {first last : NodeId} {before? : Option NodeId} :
    (∃ h moved, g.moveRange source first last target before? = .ok (h, moved)) ↔
      ∃ giver ∈ g.funcs, ∃ taker ∈ g.funcs, giver.id = source ∧ taker.id = target ∧
        first ∈ giver.nodes ∧ last ∈ giver.nodes ∧
        giver.nodes.idxOf first ≤ giver.nodes.idxOf last ∧
        ∀ b ∈ before?, b ∈ taker.nodes ∧ (source = target →
          ¬ (giver.nodes.idxOf first ≤ giver.nodes.idxOf b ∧
            giver.nodes.idxOf b ≤ giver.nodes.idxOf last)) := by
  constructor
  · rintro ⟨h, moved, done⟩
    obtain ⟨range, checked, -⟩ := bind_eq_ok_iff.1 done
    obtain ⟨giver, hg, taker, ht, hs, ht', found, anchor⟩ := own.checkMove_eq_ok_iff.1 checked
    have nodup : giver.nodes.Nodup := giver.roster.nodup
    obtain ⟨front, back, split, head, tail⟩ := giver.roster.range?_eq_some_iff.1 found
    change giver.nodes = _ at split
    obtain ⟨hfirst, hlast, forward⟩ :=
      (exists_stretch_iff nodup).1 ⟨range, front, back, split, head, tail⟩
    refine ⟨giver, hg, taker, ht, hs, ht', hfirst, hlast, forward, fun b hb => ?_⟩
    obtain ⟨listed, outside⟩ := anchor b hb
    refine ⟨listed, fun same between => outside ⟨same, ?_⟩⟩
    rw [split] at nodup between
    exact (mem_stretch_iff nodup head tail).2 between
  · rintro ⟨giver, hg, taker, ht, hs, ht', hfirst, hlast, forward, anchor⟩
    have nodup : giver.nodes.Nodup := giver.roster.nodup
    obtain ⟨range, front, back, split, head, tail⟩ :=
      (exists_stretch_iff nodup).2 ⟨hfirst, hlast, forward⟩
    have found := giver.roster.range?_eq_some_iff.2 ⟨front, back, split, head, tail⟩
    have checked : g.checkMove source first last target before? = .ok range := by
      refine own.checkMove_eq_ok_iff.2 ⟨giver, hg, taker, ht, hs, ht', found, fun b hb => ?_⟩
      obtain ⟨listed, outside⟩ := anchor b hb
      refine ⟨listed, fun inside => outside inside.1 ?_⟩
      rw [split] at nodup ⊢
      exact (mem_stretch_iff nodup head tail).1 inside.2
    exact ⟨_, _, bind_eq_ok_iff.2 ⟨range, checked, rfl⟩⟩

end Graph

namespace Workspace

/-- In a reachable workspace a range can be moved exactly if both functions exist, the source lists
its first and its last node in this order, and the anchor, if any, is listed by the target and is not
in the range. The range is then spliced into the list of the target, with that function as parent;
nothing else changes, and a refused move changes nothing at all. -/
theorem Reachable.moveRange_splices {w : Workspace} (reach : w.Reachable) (source : FuncId)
    (first last : NodeId) (target : FuncId) (before? : Option NodeId) :
    ((∃ h moved, w.graph.moveRange source first last target before? = .ok (h, moved)) ↔
      ∃ giver ∈ w.graph.funcs, ∃ taker ∈ w.graph.funcs, giver.id = source ∧ taker.id = target ∧
        first ∈ giver.nodes ∧ last ∈ giver.nodes ∧
        giver.nodes.idxOf first ≤ giver.nodes.idxOf last ∧
        ∀ b ∈ before?, b ∈ taker.nodes ∧ (source = target →
          ¬ (giver.nodes.idxOf first ≤ giver.nodes.idxOf b ∧
            giver.nodes.idxOf b ≤ giver.nodes.idxOf last))) ∧
    (∀ h moved, w.graph.moveRange source first last target before? = .ok (h, moved) →
      w.apply (.moveRange source first last target before?) =
        ({ w with graph := h }, .ok (.count moved)) ∧
      ∃ giver ∈ w.graph.funcs, giver.id = source ∧ ∃ front range back,
        giver.nodes = front ++ range ++ back ∧ range.head? = some first ∧
        range.getLast? = some last ∧ moved = range.length ∧
        h.view.funcs = w.graph.view.funcs.map (·.moved front range back source target before?) ∧
        ∀ n, h.node? n = (w.graph.node? n).map fun node =>
          if n ∈ range then { node with parent? := some target } else node) ∧
    ∀ e, w.graph.moveRange source first last target before? = .error e →
      w.apply (.moveRange source first last target before?) = (w, .error (.refused e)) := by
  have own := reach.consistent.coherent.owned
  refine ⟨own.exists_moveRange_iff, fun h moved done => ?_, fun e failed => ?_⟩
  · refine ⟨by simp only [apply, edit, done]; rfl, ?_⟩
    obtain ⟨range, checked, done⟩ := bind_eq_ok_iff.1 done
    cases done
    obtain ⟨giver, hg, taker, ht, rfl, rfl, found, anchor⟩ := own.checkMove_eq_ok_iff.1 checked
    obtain ⟨front, back, split, head, tail⟩ := giver.roster.range?_eq_some_iff.1 found
    exact ⟨giver, hg, rfl, front, range, back, split, head, tail, rfl,
      own.view_move hg ht split anchor, Graph.node?_move w.graph range _ _ before?⟩
  · simp only [apply, edit, failed]
    rfl

theorem moveRange_splices_diamond : (empty.run diamond).Reachable ∧
    ∃ h, (empty.run diamond).graph.moveRange ⟨0⟩ ⟨1⟩ ⟨2⟩ ⟨0⟩ (some ⟨0⟩) = .ok (h, 2) ∧
      h.view.funcs = [⟨⟨0⟩, "main", [⟨1⟩, ⟨2⟩, ⟨0⟩, ⟨3⟩]⟩] := by
  obtain ⟨succeeds, effect, -⟩ :=
    Reachable.moveRange_splices reachable_diamond ⟨0⟩ ⟨1⟩ ⟨2⟩ ⟨0⟩ (some ⟨0⟩)
  have main : ∀ func ∈ (empty.run diamond).graph.funcs, func.nodes = [⟨0⟩, ⟨1⟩, ⟨2⟩, ⟨3⟩] := by decide
  obtain ⟨h, moved, done⟩ := succeeds.2 (by decide)
  obtain ⟨-, giver, hg, -, front, range, back, split, head, tail, rfl, funcs, -⟩ :=
    effect h moved done
  rw [main giver hg] at split
  have nodup : (front ++ range ++ back).Nodup := split ▸ by decide
  have start := idxOf_head nodup head
  have stop := idxOf_getLast nodup tail
  rw [← split] at start stop
  change 1 = front.length at start
  change 3 = front.length + range.length at stop
  obtain ⟨a, rfl⟩ := List.length_eq_one_iff.1 start.symm
  obtain ⟨b, c, rfl⟩ := List.length_eq_two.1 (show range.length = 2 by omega)
  obtain ⟨rfl, rfl, rfl, rfl⟩ : ⟨0⟩ = a ∧ ⟨1⟩ = b ∧ ⟨2⟩ = c ∧ [⟨3⟩] = back := by simpa using split
  exact ⟨reachable_diamond, h, done, funcs⟩

end Workspace

end Dataflow
