import Dataflow.Proofs.RosterSequence

/-!
# Moving back

A range that has been moved stands in one piece in the list of the target, and the node that came after
it is still listed by the source. So the range can be moved back in front of that node, or to the end if
there was none, and this restores the lists of all functions and every node (`Coherent.move_back`), also
when source and target are one function and wherever the anchors are.
-/

namespace Dataflow

/-- Moving a range and moving it back restores a function, as it can be seen. Without the range, the
function lists `front` and `back` if it is the source, and `a` and `c` if it is the target. -/
theorem Func.View.moved_moved {v : Func.View} {front range back a c : List NodeId}
    {source target : FuncId} (before? : Option NodeId) (nodup : (front ++ back).Nodup)
    (listed : v.id = source → v.nodes = front ++ range ++ back)
    (rest : v.id = target → (if v.id = source then front ++ back else v.nodes) = a ++ c) :
    (v.moved front range back source target before?).moved a range c target source back.head? = v := by
  have restored := spliced_head? nodup range
  obtain ⟨id, name, nodes⟩ := v
  simp only [moved, mk.injEq, true_and] at listed rest ⊢
  by_cases hs : id = source
  · rw [if_pos hs] at rest
    rw [if_pos hs, if_pos hs, listed hs, ← restored]
    split_ifs with ht
    · rw [rest ht]
    · rfl
  · rw [if_neg hs] at rest
    rw [if_neg hs, if_neg hs]
    split_ifs with ht
    · exact (rest ht).symm
    · rfl

namespace Graph

variable {g h : Graph} {giver taker : Func} {front range back : List NodeId} {first last : NodeId}
  {before? : Option NodeId}

/-- A function with its new view, when all views have been changed in one way. -/
theorem exists_func_of_view {change : Func.View → Func.View}
    (views : h.view.funcs = g.view.funcs.map change) {func : Func} (hf : func ∈ g.funcs) :
    ∃ func' ∈ h.funcs, func'.view = change func.view := by
  have changed : change func.view ∈ h.view.funcs := by
    rw [views]
    exact List.mem_map_of_mem (List.mem_map_of_mem hf)
  exact List.mem_map.1 changed

/-- The place of the range in the list of the target, which is that of the source without the range if
the two are one function. -/
theorem Owned.exists_place (own : g.Owned) (hg : giver ∈ g.funcs) (ht : taker ∈ g.funcs)
    (split : giver.nodes = front ++ range ++ back)
    (anchor : ∀ b ∈ before?, b ∈ taker.nodes ∧ ¬ (giver.id = taker.id ∧ b ∈ range)) :
    ∃ a c, (if taker.id = giver.id then front ++ back else taker.nodes) = a ++ c ∧
      spliced (a ++ c) range before? = a ++ range ++ c := by
  have listed : ∀ b ∈ before?, b ∈ if taker.id = giver.id then front ++ back else taker.nodes := by
    intro b hb
    obtain ⟨hb, outside⟩ := anchor b hb
    split_ifs with same
    · rw [func_unique own.func_ids ht hg same, split, List.append_assoc, List.mem_append,
        List.mem_append] at hb
      rw [List.mem_append]
      exact hb.imp_right (Or.resolve_left · fun inside => outside ⟨same.symm, inside⟩)
    · exact hb
  obtain ⟨a, c, at_, -, splice⟩ := exists_spliced_eq listed
  exact ⟨a, c, at_, at_ ▸ splice range⟩

/-- After a move the target lists the range in one piece, and the source what came after it. -/
theorem Coherent.exists_moved (co : g.Coherent) (hg : giver ∈ g.funcs) (ht : taker ∈ g.funcs)
    (split : giver.nodes = front ++ range ++ back)
    (anchor : ∀ b ∈ before?, b ∈ taker.nodes ∧ ¬ (giver.id = taker.id ∧ b ∈ range)) :
    let h := g.move range giver.id taker.id before?
    h.Owned ∧ ∃ a c, (if taker.id = giver.id then front ++ back else taker.nodes) = a ++ c ∧
      (∃ taker' ∈ h.funcs, taker'.id = taker.id ∧ taker'.nodes = a ++ range ++ c) ∧
      ∃ giver' ∈ h.funcs, giver'.id = giver.id ∧ ∀ b ∈ back, b ∈ giver'.nodes := by
  intro h
  have own := co.owned
  have nodup : (front ++ range ++ back).Nodup := split ▸ giver.roster.nodup
  have listed : ∀ n ∈ range, g.Lists giver.id n := fun n hn =>
    ⟨giver, hg, rfl, split ▸ List.mem_append_left _ (List.mem_append_right _ hn)⟩
  have exists_ : g.HasFunc taker.id := List.mem_map_of_mem ht
  have anchored : ∀ b ∈ before?, g.Lists taker.id b ∧ ¬ (taker.id = giver.id ∧ b ∈ range) := by
    intro b hb
    obtain ⟨hb, outside⟩ := anchor b hb
    exact ⟨⟨taker, ht, rfl, hb⟩, fun inside => outside ⟨inside.1.symm, inside.2⟩⟩
  have own' : h.Owned := (co.move listed exists_ anchored).coherent.owned
  have views : h.view.funcs =
      g.view.funcs.map (·.moved front range back giver.id taker.id before?) :=
    own.view_move hg ht split anchor
  obtain ⟨giver', hg', view⟩ := exists_func_of_view views hg
  obtain ⟨taker', ht', view'⟩ := exists_func_of_view views ht
  have hid : giver'.id = giver.id := congrArg Func.View.id view
  obtain ⟨a, c, rest, splice⟩ := own.exists_place hg ht split anchor
  refine ⟨own', a, c, rest, ⟨taker', ht', congrArg Func.View.id view', ?_⟩, giver', hg', hid, ?_⟩
  · have nodes := congrArg Func.View.nodes view'
    rw [Func.moved_view] at nodes
    simp only [if_true] at nodes
    exact nodes.trans ((congrArg (spliced · range before?) rest).trans splice)
  · intro b hb
    have outside : b ∉ range := fun hr =>
      (List.nodup_append.1 nodup).2.2 b (List.mem_append_right _ hr) b hb rfl
    have kept : h.Lists giver.id b := (lists_move own.func_ids exists_ anchored giver.id b).2 <|
      .inl ⟨⟨giver, hg, rfl, split ▸ List.mem_append_right _ hb⟩, fun inside => outside inside.2⟩
    exact (lists_iff own'.func_ids hg').1 (hid ▸ kept)

/-- A range that has been moved can be moved back in front of the node that came after it, and this
restores what can be seen of the functions. -/
theorem Coherent.move_back (co : g.Coherent) (hg : giver ∈ g.funcs) (ht : taker ∈ g.funcs)
    (split : giver.nodes = front ++ range ++ back) (head : range.head? = some first)
    (tail : range.getLast? = some last)
    (anchor : ∀ b ∈ before?, b ∈ taker.nodes ∧ ¬ (giver.id = taker.id ∧ b ∈ range)) :
    let h := g.move range giver.id taker.id before?
    h.checkMove taker.id first last giver.id back.head? = .ok range ∧
      (h.move range taker.id giver.id back.head?).view.funcs = g.view.funcs := by
  intro h
  have own := co.owned
  have nodup : (front ++ range ++ back).Nodup := split ▸ giver.roster.nodup
  have views : h.view.funcs =
      g.view.funcs.map (·.moved front range back giver.id taker.id before?) :=
    own.view_move hg ht split anchor
  obtain ⟨own', a, c, rest, ⟨taker', ht', hid', split'⟩, giver', hg', hid, kept⟩ :=
    co.exists_moved hg ht split anchor
  have found : taker'.roster.range? first last = some range :=
    taker'.roster.range?_eq_some_iff.2 ⟨a, c, split', head, tail⟩
  have anchor' : ∀ b ∈ back.head?, b ∈ giver'.nodes ∧ ¬ (taker'.id = giver'.id ∧ b ∈ range) := by
    intro b hb
    have hb := List.mem_of_mem_head? hb
    refine ⟨kept b hb, fun inside => ?_⟩
    exact (List.nodup_append.1 nodup).2.2 b (List.mem_append_right _ inside.2) b hb rfl
  rw [← hid, ← hid']
  refine ⟨own'.checkMove_eq_ok_iff.2 ⟨taker', ht', giver', hg', rfl, rfl, found, anchor'⟩, ?_⟩
  rw [own'.view_move ht' hg' split' anchor', views, List.map_map, hid, hid']
  conv_rhs => rw [← List.map_id g.view.funcs]
  refine List.map_congr_left fun v hv => ?_
  obtain ⟨func, hf, rfl⟩ := List.mem_map.1 hv
  have nodup_rest : (front ++ back).Nodup := filter_notMem_eq nodup ▸ nodup.filter _
  refine Func.View.moved_moved before? nodup_rest (fun same => ?_) fun same => ?_
  · rw [func_unique own.func_ids hf hg same]
    exact split
  · rw [func_unique own.func_ids hf ht same]
    exact rest

/-- Moving listed nodes and moving them back leaves every node as it was. -/
theorem Owned.nodes_move_back (own : g.Owned) {source target : FuncId} {nodes : List NodeId}
    (listed : ∀ n ∈ nodes, g.Lists source n) (before? next? : Option NodeId) :
    ((g.move nodes source target before?).move nodes target source next?).nodes = g.nodes := by
  refine Std.ExtTreeMap.ext_getElem? fun n => ?_
  change Graph.node? _ n = g.node? n
  rw [node?_move, node?_move, Option.map_map]
  cases stored : g.node? n with
  | none => rfl
  | some node =>
    rw [Option.map_some, Function.comp_apply]
    split_ifs with moved
    · obtain ⟨node', stored', parent⟩ := own.listed (listed n moved)
      obtain rfl := Option.some.inj (stored.symm.trans stored')
      rw [← parent]
    · rfl

/-- A move can be undone by a move. -/
theorem Coherent.moveRange_back (co : g.Coherent) {source target : FuncId} {moved : Nat}
    (done : g.moveRange source first last target before? = .ok (h, moved)) :
    ∃ giver range k, g.func? source = some giver ∧
      g.checkMove source first last target before? = .ok range ∧ range.length = moved ∧
      h.checkMove target first last source (giver.roster.next? last) = .ok range ∧
      h.moveRange target first last source (giver.roster.next? last) = .ok (k, moved) ∧
      k.view.funcs = g.view.funcs ∧ k.nodes = g.nodes := by
  have own := co.owned
  obtain ⟨range, checked, done⟩ := bind_eq_ok_iff.1 done
  cases done
  have listed := (own.checkMove checked).1
  obtain ⟨giver, hg, taker, ht, rfl, rfl, found, anchor⟩ := own.checkMove_eq_ok_iff.1 checked
  obtain ⟨front, back, split, head, tail⟩ := giver.roster.range?_eq_some_iff.1 found
  have next : giver.roster.next? last = back.head? := by
    obtain ⟨init, rfl⟩ := List.getLast?_eq_some_iff.1 tail
    exact Roster.next?_eq (a := front ++ init) (by simp [split])
  obtain ⟨checked', views⟩ := co.move_back hg ht split head tail anchor
  rw [← next] at checked' views
  exact ⟨giver, range, _, own.func?_eq_some_iff.2 ⟨hg, rfl⟩, checked, rfl, checked',
    bind_eq_ok_iff.2 ⟨range, checked', rfl⟩, views, own.nodes_move_back listed before? _⟩

end Graph

namespace Workspace

/-- In a reachable workspace every move of a range can be undone by moving the range from the target back
to the source, in front of the node that came after it or else to the end. This is not refused, moves the
same nodes and restores the lists of all functions and every node with its parent, operands, tokens and
uses. -/
theorem Reachable.moveRange_undone {w moved : Workspace} (reach : w.Reachable) {source target : FuncId}
    {first last : NodeId} {before? : Option NodeId} {count : Nat}
    (done : w.apply (.moveRange source first last target before?) = (moved, .ok (.count count))) :
    ∃ giver range g, w.graph.func? source = some giver ∧
      w.graph.checkMove source first last target before? = .ok range ∧ range.length = count ∧
      moved.graph.checkMove target first last source (giver.roster.next? last) = .ok range ∧
      moved.apply (.moveRange target first last source (giver.roster.next? last)) =
        ({ w with graph := g }, .ok (.count count)) ∧
      g.view.funcs = w.graph.view.funcs ∧ g.nodes = w.graph.nodes := by
  cases result : w.graph.moveRange source first last target before? with
  | error e =>
    simp only [apply, edit, result] at done
    cases done
  | ok a =>
    obtain ⟨h, k⟩ := a
    have answer : w.apply (.moveRange source first last target before?) =
        ({ w with graph := h }, .ok (.count k)) := by simp only [apply, edit, result]; rfl
    cases answer.symm.trans done
    obtain ⟨giver, range, g, found, checked, length, checked', back, funcs, nodes⟩ :=
      reach.consistent.coherent.moveRange_back result
    refine ⟨giver, range, g, found, checked, length, checked', ?_, funcs, nodes⟩
    simp only [apply, edit, back]
    rfl

/-- Two nodes are moved from the middle of a function into an empty one and back. -/
theorem moveRange_undone_aside :
    let w := empty.run (diamond ++ [.addFunc "aside"])
    let move : Edit := .moveRange ⟨0⟩ ⟨1⟩ ⟨2⟩ ⟨1⟩ none
    w.Reachable ∧ (w.apply move).2 = .ok (.count 2) ∧
      (w.apply move).1.graph.funcs.map Func.nodes = [[⟨0⟩, ⟨3⟩], [⟨1⟩, ⟨2⟩]] ∧
      ∃ g, (w.apply move).1.apply (.moveRange ⟨1⟩ ⟨1⟩ ⟨2⟩ ⟨0⟩ (some ⟨3⟩)) =
          ({ w with graph := g }, .ok (.count 2)) ∧
        g.funcs.map Func.nodes = [[⟨0⟩, ⟨1⟩, ⟨2⟩, ⟨3⟩], []] ∧ g.nodes = w.graph.nodes := by
  intro w move
  have reach : w.Reachable := ⟨_, by decide, rfl⟩
  have answer : (w.apply move).2 = .ok (.count 2) := by decide +kernel
  have next : ∀ giver ∈ w.graph.funcs, giver.id = ⟨0⟩ → giver.roster.next? ⟨2⟩ = some ⟨3⟩ := by
    decide +kernel
  obtain ⟨giver, range, g, found, -, -, -, back, funcs, nodes⟩ :=
    Reachable.moveRange_undone reach (Prod.ext rfl answer)
  obtain ⟨hg, id⟩ := reach.consistent.coherent.owned.func?_eq_some_iff.1 found
  rw [next giver hg id] at back
  have lists := congrArg (List.map Func.View.nodes) funcs
  simp only [Graph.view, List.map_map] at lists
  refine ⟨reach, answer, by decide +kernel, g, back, ?_, nodes⟩
  exact lists.trans (by decide +kernel)

end Workspace

end Dataflow
