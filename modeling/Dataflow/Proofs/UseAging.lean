import Dataflow.Proofs.Handover
import Dataflow.Proofs.SlabHandles

/-!
# Use lists over time

An edit changes the use list of a node by adding and removing records only, so that the list after it
is a later state of the list before (`UseList.Later`), and a slot that reads the same value after it as
before still holds the token of the same record. Both together is what lasts of a graph over an edit
(`Graph.Continues`). Edits that connect slots to one value have this property because a slot which
reads that value already is passed over (`Patched.operand?`), erasing because slots are only
disconnected (`Sheds`), and replacing a node because its records all lead elsewhere
(`Redirected.continues`).
-/

namespace Dataflow

namespace UseList

/-- Adding and removing records makes `l` to `l'`. -/
def Later (l l' : UseList) : Prop := ∃ commands, l'.slab = l.slab.run commands

theorem Later.refl (l : UseList) : l.Later l := ⟨[], rfl⟩

theorem Later.trans {l l' l'' : UseList} (first : l.Later l') (rest : l'.Later l'') :
    l.Later l'' := by
  obtain ⟨commands, first⟩ := first
  obtain ⟨more, rest⟩ := rest
  exact ⟨commands ++ more, by rw [rest, first, Slab.run_append]⟩

theorem later_add (l : UseList) (u : Use) : l.Later (l.add u) := ⟨[.push u], rfl⟩

theorem later_remove (l : UseList) (t : Token) : l.Later (l.remove t) := ⟨[.remove t], rfl⟩

/-- A token that has lost its record stands for no other record later on, until its cell has been
emptied too often. -/
theorem Later.get?_eq_none {l l' l'' : UseList} {t : Token} {u : Use} (first : l.Later l')
    (rest : l'.Later l'') (here : l.get? t = some u) (lost : l'.get? t ≠ some u)
    (few : l''.slab.emptied t.index < l.slab.emptied t.index + 2 ^ 32) : l''.get? t = none := by
  obtain ⟨commands, first⟩ := first
  obtain ⟨more, rest⟩ := rest
  have removed : .remove t ∈ commands := by
    by_contra kept
    refine lost ?_
    rw [UseList.get?, first]
    exact l.wf.get?_run here kept
  rw [first, ← Slab.run_append] at rest
  rw [rest, Slab.emptied_run, Nat.add_lt_add_iff_left] at few
  have gone := (l.wf.outdated_run here (List.mem_append_left more removed) few).contains_eq_false
  rwa [← rest, Slab.contains_eq_isSome_get?, Option.isSome_eq_false_iff,
    Option.isNone_iff_eq_none] at gone

end UseList

namespace Graph

/-! ## What lasts -/

/-- Every node of `h` is a node of `g`, and its use list goes on. -/
def Ages (g h : Graph) : Prop :=
  ∀ p node', h.node? p = some node' → ∃ node, g.node? p = some node ∧ node.uses.Later node'.uses

/-- A slot that reads the same value in `g` and in `h` holds the same token, and the use list of a node
that is stored in both goes on. -/
structure Continues (g h : Graph) : Prop where
  token : ∀ {x s o o'}, g.operand? x s = some o → h.operand? x s = some o' → o.value ≠ .null →
    o'.value = o.value → o' = o
  uses : ∀ {p node node'}, g.node? p = some node → h.node? p = some node' →
    node.uses.Later node'.uses

/-- Slots hold in `h` what they hold in `g`, or nothing, and `h` has no other nodes than `g`. -/
structure Sheds (g h : Graph) : Prop where
  operand : ∀ {x s o}, h.operand? x s = some o → g.operand? x s = some o ∨ o.value = .null
  ages : g.Ages h

section Relations

variable {g h k : Graph}

theorem Ages.refl (g : Graph) : g.Ages g := fun _ node' stored => ⟨node', stored, .refl _⟩

theorem Ages.trans (first : g.Ages h) (rest : h.Ages k) : g.Ages k := by
  intro p node'' stored
  obtain ⟨node', stored, later'⟩ := rest p node'' stored
  obtain ⟨node, stored, later⟩ := first p node' stored
  exact ⟨node, stored, later.trans later'⟩

theorem Ages.later (ages : g.Ages h) {p : NodeId} {node node' : Node} (stored : g.node? p = some node)
    (stored' : h.node? p = some node') : node.uses.Later node'.uses := by
  obtain ⟨old, found, later⟩ := ages p node' stored'
  obtain rfl := Option.some.inj (stored.symm.trans found)
  exact later

theorem Continues.of_operand (ages : g.Ages h) (same : ∀ x s, h.operand? x s = g.operand? x s) :
    g.Continues h := by
  refine ⟨fun {x s o o'} held held' _ _ => ?_, ages.later⟩
  rw [same, held] at held'
  exact (Option.some.inj held').symm

theorem Continues.refl (g : Graph) : g.Continues g := .of_operand (.refl g) fun _ _ => rfl

theorem Sheds.refl (g : Graph) : g.Sheds g := ⟨.inl, .refl g⟩

theorem Sheds.trans (first : g.Sheds h) (rest : h.Sheds k) : g.Sheds k :=
  ⟨fun held => (rest.operand held).elim first.operand .inr, first.ages.trans rest.ages⟩

theorem Sheds.continues (sheds : g.Sheds h) : g.Continues h := by
  refine ⟨fun {x s o o'} held held' connected same => ?_, sheds.ages.later⟩
  rcases sheds.operand held' with old | null
  · exact Option.some.inj (old.symm.trans held)
  · exact absurd (same.symm.trans null) connected

end Relations

/-! ## Changing and connecting nodes -/

theorem ages_modifyNode (g : Graph) (n : NodeId) {f : Node → Node}
    (later : ∀ node, g.node? n = some node → node.uses.Later (f node).uses) :
    g.Ages (g.modifyNode n f) := by
  intro p node' stored
  rw [node?_modifyNode] at stored
  split_ifs at stored with same
  · subst same
    obtain ⟨node, found, rfl⟩ := Option.map_eq_some_iff.1 stored
    exact ⟨node, found, later node found⟩
  · exact ⟨node', stored, .refl _⟩

theorem ages_recordUse (g : Graph) (u : Use) : g.Ages (g.recordUse u) := by
  unfold recordUse
  split
  · exact .refl g
  · exact ages_modifyNode g _ fun node _ => node.uses.later_add u

theorem ages_forgetUse (g : Graph) (o : Operand) : g.Ages (g.forgetUse o) := by
  unfold forgetUse
  split
  · exact ages_modifyNode g _ fun node _ => node.uses.later_remove _
  · exact .refl g

theorem ages_link (g : Graph) (user : NodeId) (s : Slot) (v : Value) :
    g.Ages (g.link user s v) :=
  (ages_recordUse g _).trans (ages_modifyNode _ user fun node _ => by
    rw [Node.uses_setOperand]
    exact .refl _)

theorem ages_foldl_link (g : Graph) (user : NodeId) (operands : List (Slot × Value)) :
    g.Ages (operands.foldl (fun g e => g.link user e.1 e.2) g) := by
  induction operands generalizing g with
  | nil => exact .refl g
  | cons e operands ih => exact (ages_link g user e.1 e.2).trans (ih _)

theorem ages_connect (g : Graph) (user : NodeId) (s : Slot) (v : Value) :
    g.Ages (g.connect user s v) := by
  cases held : g.operand? user s with
  | none =>
    rw [connect_of_none held]
    exact .refl g
  | some old =>
    rw [connect_eq held]
    split_ifs
    · exact .refl g
    · exact (ages_forgetUse g old).trans (ages_link _ user s v)

theorem Patched.ages {P : Value → Prop} {g h : Graph} (p : Patched P g h) : g.Ages h := by
  induction p with
  | refl => exact .refl _
  | connect user s _ _ ih => exact (ages_connect _ user s _).trans ih

/-- Connecting a slot to the value that it reads changes nothing. -/
theorem operand?_of_connect {g : Graph} {user x : NodeId} {s s' : Slot} {v : Value} {o : Operand}
    (held : (g.connect user s v).operand? x s' = some o) :
    g.operand? x s' = some o ∨ o.value = v ∧ g.reads? x s' ≠ some v := by
  by_cases here : user = x ∧ s = s'
  · obtain ⟨rfl, rfl⟩ := here
    cases old : g.operand? user s with
    | none =>
      rw [connect_of_none old, old] at held
      cases held
    | some o' =>
      rw [connect_eq old] at held
      split_ifs at held with same
      · exact .inl (old.symm.trans held)
      · rw [operand?_link, if_pos ⟨rfl, rfl⟩, operand?_forgetUse, old, Option.map_some,
          Option.some.injEq] at held
        subst held
        exact .inr ⟨rfl, by rwa [reads?, old, Option.map_some, ne_eq, Option.some.injEq]⟩
  · rw [operand?_connect_of_ne g here] at held
    exact .inl held

/-- When slots are connected to one value, a slot holds what it held or reads the value newly. -/
theorem Patched.operand? {v : Value} {g h : Graph} (p : Patched (· = v) g h) {x : NodeId} {s : Slot}
    {o : Operand} (held : h.operand? x s = some o) :
    g.operand? x s = some o ∨ o.value = v ∧ g.reads? x s ≠ some v := by
  induction p with
  | refl => exact .inl held
  | connect user s' goal _ ih =>
    subst goal
    rcases ih held with held | ⟨read, new⟩
    · exact operand?_of_connect held
    · refine .inr ⟨read, fun old => new ?_⟩
      rw [reads?_connect, old]
      split_ifs <;> rfl

theorem Patched.continues {v : Value} {g h : Graph} (p : Patched (· = v) g h) : g.Continues h := by
  refine ⟨fun {x s o o'} held held' _ same => ?_, p.ages.later⟩
  rcases p.operand? held' with old | ⟨read, new⟩
  · exact Option.some.inj (old.symm.trans held)
  · rw [reads?, held, Option.map_some, ← same, read] at new
    exact absurd rfl new

theorem Patched.sheds {g h : Graph} (p : Patched (· = .null) g h) : g.Sheds h :=
  ⟨fun held => (p.operand? held).imp_right And.left, p.ages⟩

/-! ## Erasing -/

theorem sheds_discard (g : Graph) (f : FuncId) (n : NodeId) : g.Sheds (g.discard f n) := by
  refine ⟨fun {x s o} held => ?_, fun p node' stored => ?_⟩
  · rw [operand?_discard] at held
    split_ifs at held
    exact .inl held
  · rw [node?_discard] at stored
    split_ifs at stored
    exact ⟨node', stored, .refl _⟩

theorem outlastsErasing_sheds (g : Graph) : OutlastsErasing g.Sheds where
  patched p sheds := sheds.trans p.sheds
  discard f n sheds := sheds.trans (sheds_discard _ f n)
  funcs _ sheds := sheds.trans ⟨.inl, .refl _⟩

/-! ## Replacing uses -/

/-- Records that lead elsewhere are those of slots that read another value from then on. -/
theorem Redirected.continues {g h : Graph} {p : NodeId} {us : List Use} {f : Use → Value}
    (r : g.Redirected p us f h) (sym : g.Symmetric) (ages : g.Ages h) (listed : us ⊆ g.allUses p)
    (ne : ∀ u ∈ us, u.value ≠ f u) : g.Continues h := by
  refine ⟨fun {x s o o'} held held' _ same => ?_, ages.later⟩
  by_cases moved : (x, s) ∈ us.map Use.place
  · obtain ⟨u, hu, here⟩ := List.mem_map.1 moved
    obtain ⟨rfl, rfl⟩ := Prod.mk.inj here
    have old := (sym.mem_allUses.1 (listed hu)).1
    have new := r.reads u hu
    rw [reads?, held, Option.map_some, Option.some.injEq] at old
    rw [reads?, held', Option.map_some, Option.some.injEq] at new
    exact absurd (old.symm.trans (same.symm.trans new)) (ne u hu)
  · rw [r.operand x s moved, held] at held'
    exact (Option.some.inj held').symm

theorem Symmetric.continues_replaceNode {g : Graph} (sym : g.Symmetric) (old new : NodeId) :
    g.Continues (g.replaceNode old new).1 := by
  rcases sym.replaceNode_cases old new with same | ⟨ne, handed, listed, redirected⟩
  · rw [same]
    exact .refl g
  · refine redirected.continues sym (g.patched_replaceNode old new).ages listed fun u hu eq => ?_
    have reads := (sym.mem_allUses.1 (listed hu)).2
    rw [eq] at reads
    exact ne (Option.some.inj reads).symm

/-! ## The other edits -/

theorem continues_connect (g : Graph) (user : NodeId) (s : Slot) (v : Value) :
    g.Continues (g.connect user s v) :=
  Patched.continues (v := v) (.connect user s rfl .refl)

theorem continues_setInput {g h : Graph} {n : NodeId} {i : Nat} {v : Value}
    (done : g.setInput n i v = .ok h) : g.Continues h := by
  obtain ⟨-, rfl⟩ := eq_of_setInput done
  exact continues_connect g n (.input i) v

theorem continues_setPredicate {g h : Graph} {n : NodeId} {v : Value}
    (done : g.setPredicate n v = .ok h) : g.Continues h := by
  obtain ⟨-, rfl⟩ := eq_of_setPredicate done
  exact continues_connect g n .predicate v

theorem continues_clearOperands {g h : Graph} {n : NodeId} (done : g.clearOperands n = .ok h) :
    g.Continues h := by
  obtain ⟨slots, rfl⟩ := exists_of_clearOperands done
  exact (patched_clearSlots g n slots).continues

theorem continues_modifyNode (g : Graph) (n : NodeId) {f : Node → Node}
    (same : ∀ node, g.node? n = some node →
      (f node).operand? = node.operand? ∧ (f node).uses = node.uses) :
    g.Continues (g.modifyNode n f) := by
  refine .of_operand (ages_modifyNode g n fun node stored => ?_)
    (operand?_modifyNode fun node stored => (same node stored).1)
  rw [(same node stored).2]
  exact .refl _

theorem continues_setName {g h : Graph} {n : NodeId} {name : String}
    (done : g.setName n name = .ok h) : g.Continues h := by
  rw [eq_of_setName done]
  exact continues_modifyNode g n fun _ _ => ⟨funext fun s => by cases s <;> rfl, rfl⟩

theorem continues_setType {g h : Graph} {n : NodeId} {i : Nat} {t : TensorType}
    (done : g.setType n i t = .ok h) : g.Continues h := by
  obtain ⟨f, rfl, same⟩ := exists_of_setType done
  exact continues_modifyNode g n fun node stored => ⟨(same node stored).1, (same node stored).2.1⟩

theorem continues_moveRange {g h : Graph} {source target : FuncId} {first last : NodeId}
    {before? : Option NodeId} {moved : Nat}
    (done : g.moveRange source first last target before? = .ok (h, moved)) : g.Continues h := by
  obtain ⟨nodes, -, done⟩ := bind_eq_ok_iff.1 done
  cases done
  refine .of_operand (fun p node' stored => ?_) (operand?_move g nodes source target before?)
  rw [node?_move, Option.map_eq_some_iff] at stored
  obtain ⟨node, stored, rfl⟩ := stored
  refine ⟨node, stored, ?_⟩
  split_ifs <;> exact .refl _

theorem operand?_foldl_link_of_ne (g : Graph) {user x : NodeId} (ne : user ≠ x)
    (operands : List (Slot × Value)) (s : Slot) :
    (operands.foldl (fun g e => g.link user e.1 e.2) g).operand? x s = g.operand? x s := by
  induction operands generalizing g with
  | nil => rfl
  | cons e operands ih =>
    rw [List.foldl_cons, ih, operand?_link, if_neg fun same => ne same.1]

/-- Attaching a new node lets the uses of others go on. -/
theorem Owned.continues_attach {g h : Graph} (own : g.Owned) {f : FuncId} {n : Node}
    (absent : g.node? n.id = none) {before? : Option NodeId}
    (done : g.attach f n before? = .ok h) : g.Continues h := by
  obtain ⟨rfl, -, -, readable⟩ := own.eq_of_attach done
  rw [store_eq absent readable]
  have other {x : NodeId} {node : Node} (stored : g.node? x = some node) : n.id ≠ x := by
    rintro rfl
    rw [absent] at stored
    cases stored
  refine ⟨fun {x s o o'} held held' _ _ => ?_, fun {p node node'} stored stored' => ?_⟩
  · obtain ⟨node, stored, -⟩ := operand?_eq_some_iff.1 held
    have kept := operand?_foldl_link_of_ne (g.withNode { n with parent? := some f }) (other stored)
      n.operands s
    rw [operand?_withNode, if_neg (other stored), held] at kept
    exact Option.some.inj (held'.symm.trans kept)
  · obtain ⟨old, found, later⟩ := ages_foldl_link _ n.id n.operands p node' stored'
    rw [node?_withNode, if_neg (other stored), stored, Option.some.injEq] at found
    exact found ▸ later

end Graph

end Dataflow
