import Dataflow.Proofs.AnyHistory
import Dataflow.Proofs.Problems
import Dataflow.Proofs.UseOrder
import Mathlib.Data.Set.Function

/-!
# What the check of links finds

The diagnosis of a node compares its connected slots with the records that their tokens stand for, and
the records of its uses with the slots that they name (`brokenAt_iff`). If every slot reads a stored node
and every record stands in the list of the node that its value names, then these comparisons of single
nodes are enough for the whole graph: where none of them fails, slots and records name each other
(`Tidy.symmetric_of_unbroken`), and so they correspond one to one (`Tidy.one_to_one_of_unbroken`).

A record in the list of another node is a different matter. A token does not say which list it belongs
to, so such a record passes for the one that its slot holds if the two have the same token.
-/

namespace Dataflow

theorem Value.exists_of_ne_null {v : Value} (ne : v ≠ .null) : ∃ p i, v = .result p i := by
  cases v with
  | null => exact absurd rfl ne
  | result p i => exact ⟨p, i, rfl⟩

namespace Graph

variable {g : Graph}

/-! ## The check -/

/-- The diagnosis of a stored node reports a broken link. -/
def BrokenAt (g : Graph) (n : NodeId) : Prop :=
  ∃ problems, g.problemsAt n = .ok problems ∧ ∃ user v flaw, .brokenLink user v flaw ∈ problems

theorem brokenAt_iff {n : NodeId} :
    g.BrokenAt n ↔ ∃ node, g.node? n = some node ∧ g.linkProblems node ≠ [] := by
  cases stored : g.node? n with
  | none => simp [BrokenAt, problemsAt, nodeOrRefusal, stored, Except.map]
  | some node =>
    simp only [BrokenAt, problemsAt, nodeOrRefusal, stored, Except.map, Except.ok.injEq,
      exists_eq_left', exists_brokenLink_mem_nodeProblems_iff, Option.some.injEq]

/-- No broken link is reported exactly if the slots of the node that read stored nodes are linked, and
the slots that its records name hold the recorded values with the tokens of these records. -/
theorem Tidy.not_brokenAt_iff (tidy : g.Tidy) {n : NodeId} : ¬ g.BrokenAt n ↔
    (∀ s o p, g.operand? n s = some o → o.value.node? = some p → g.contains p →
      ∃ t, o.token? = some t ∧ g.record? p t = some ⟨n, s, o.value⟩) ∧
    ∀ t u, g.record? n t = some u → g.operand? u.user u.slot = some ⟨u.value, some t⟩ := by
  cases stored : g.node? n with
  | none => simp [brokenAt_iff, Graph.operand?, record?, stored]
  | some node =>
    obtain ⟨rfl, -⟩ := tidy n node stored
    have operand (s : Slot) : g.operand? node.id s = node.operand? s := by
      rw [Graph.operand?, stored, Option.bind_some]
    have record (t : Token) (u : Use) : g.record? node.id t = some u ↔ (t, u) ∈ node.uses.entries := by
      rw [record?, stored, Option.bind_some, UseList.get?_eq_some_iff]
    simp only [brokenAt_iff, stored, Option.some.injEq, exists_eq_left', not_not, operand, record,
      linkProblems_eq_nil_iff, recordFlaw?_eq_none_iff]
    refine and_congr_left fun _ => ⟨fun passed s o p held hp contained => ?_, fun linked s v hs => ?_⟩
    · exact (slotFlaw?_eq_none_iff held hp contained).1
        (passed s o.value (Node.mem_operands.2 ⟨Value.ne_null_of_node? hp, o, held, rfl⟩))
    · obtain ⟨-, o, held, rfl⟩ := Node.mem_operands.1 hs
      cases found : o.value.node?.bind g.node? with
      | none => simp [slotFlaw?, found]
      | some producer =>
        obtain ⟨p, hp, found⟩ := Option.bind_eq_some_iff.1 found
        have contained := contains_of_node? found
        exact (slotFlaw?_eq_none_iff held hp contained).2 (linked s o p held hp contained)

/-! ## Graphs without broken links -/

/-- If no broken link is reported, slots and records name each other, provided that every slot can be
read and every record stands in the list of the node that its value names. -/
theorem Tidy.symmetric_of_unbroken (tidy : g.Tidy)
    (readable : ∀ x s v, g.reads? x s = some v → g.Readable v)
    (filed : ∀ p t u, g.record? p t = some u → u.value.node? = some p)
    (unbroken : ∀ n, ¬ g.BrokenAt n) : g.Symmetric := by
  have links (n : NodeId) := tidy.not_brokenAt_iff.1 (unbroken n)
  refine ⟨fun {x s o} held => ?_, fun {p t u} recorded =>
    ⟨filed p t u recorded, (links p).2 t u recorded⟩⟩
  obtain ⟨v, token?⟩ := o
  cases v with
  | null => exact .inl (congrArg (Operand.mk .null) (tidy.operand? held rfl))
  | result p i =>
    have contained := readable x s (.result p i) (by rw [reads?, held, Option.map_some]) p rfl
    obtain ⟨t, token, recorded⟩ := (links x).1 s _ p held rfl contained
    exact .inr ⟨p, t, rfl, token, recorded⟩

/-- In a symmetric graph no broken link is reported. -/
theorem Symmetric.not_brokenAt (sym : g.Symmetric) (tidy : g.Tidy) (n : NodeId) : ¬ g.BrokenAt n := by
  rw [brokenAt_iff]
  rintro ⟨node, stored, found⟩
  obtain ⟨rfl, -⟩ := tidy n node stored
  exact found (sym.linkProblems_eq_nil stored)

/-- The records of all use lists, with the nodes in whose lists they stand and their tokens. -/
def records (g : Graph) : Set (NodeId × Token × Use) := {e | g.record? e.1 e.2.1 = some e.2.2}

/-- The slots that read a value. -/
def connectedSlots (g : Graph) : Set (NodeId × Slot) := {e | ∃ v, v ≠ .null ∧ g.reads? e.1 e.2 = some v}

theorem Symmetric.reads?_of_record (sym : g.Symmetric) {p : NodeId} {t : Token} {u : Use}
    (recorded : g.record? p t = some u) : g.reads? u.user u.slot = some u.value :=
  (sym.reads?_eq_some_iff (sym.record recorded).1).2 ⟨t, recorded⟩

/-- Every record names a connected slot, and every connected slot is named by one record. -/
theorem Symmetric.bijOn_records (sym : g.Symmetric) :
    Set.BijOn (fun e => e.2.2.place) g.records g.connectedSlots := by
  refine ⟨?_, ?_, ?_⟩
  · rintro ⟨p, t, u⟩ recorded
    exact ⟨u.value, Value.ne_null_of_node? (sym.record recorded).1, sym.reads?_of_record recorded⟩
  · rintro ⟨p, t, u⟩ recorded ⟨q, t', u'⟩ recorded' same
    obtain ⟨user, slot⟩ := Prod.mk.inj same
    obtain ⟨rfl, rfl, rfl⟩ := sym.token_unique recorded recorded' user slot
    rfl
  · rintro ⟨x, s⟩ ⟨v, ne, read⟩
    obtain ⟨p, i, rfl⟩ := Value.exists_of_ne_null ne
    obtain ⟨t, recorded⟩ := (sym.reads?_eq_some_iff rfl).1 read
    exact ⟨(p, t, _), recorded, rfl⟩

/-- A slot that reads a value is named by exactly one record, which stands in the list of the node that
is read and says this value. -/
theorem Symmetric.exists_only_record (sym : g.Symmetric) {x : NodeId} {s : Slot} {v : Value}
    (ne : v ≠ .null) (read : g.reads? x s = some v) :
    ∃ p t, v.node? = some p ∧ g.record? p t = some ⟨x, s, v⟩ ∧
      ∀ q t' u, g.record? q t' = some u → u.user = x → u.slot = s →
        q = p ∧ t' = t ∧ u = ⟨x, s, v⟩ := by
  obtain ⟨p, i, rfl⟩ := Value.exists_of_ne_null ne
  obtain ⟨t, recorded⟩ := (sym.reads?_eq_some_iff rfl).1 read
  exact ⟨p, t, rfl, recorded, fun q t' u recorded' user slot =>
    sym.token_unique recorded' recorded user slot⟩

/-- In a tidy graph in which every slot can be read and every record stands in the list of the node that
its value names, records and connected slots correspond one to one as soon as no broken link is
reported. -/
theorem Tidy.one_to_one_of_unbroken (tidy : g.Tidy)
    (readable : ∀ x s v, g.reads? x s = some v → g.Readable v)
    (filed : ∀ p t u, g.record? p t = some u → u.value.node? = some p)
    (unbroken : ∀ n, ¬ g.BrokenAt n) :
    Set.BijOn (fun e => e.2.2.place) g.records g.connectedSlots ∧
    (∀ x s v, v ≠ .null → g.reads? x s = some v →
      ∃ p t, v.node? = some p ∧ g.record? p t = some ⟨x, s, v⟩ ∧
        ∀ q t' u, g.record? q t' = some u → u.user = x → u.slot = s →
          q = p ∧ t' = t ∧ u = ⟨x, s, v⟩) ∧
    ∀ p t u, g.record? p t = some u → g.reads? u.user u.slot = some u.value := by
  have sym := tidy.symmetric_of_unbroken readable filed unbroken
  exact ⟨sym.bijOn_records, fun x s v => sym.exists_only_record, fun p t u => sym.reads?_of_record⟩

end Graph

namespace Workspace

/-- After any history, records written by hand included, in which every slot reads nothing or a stored
node and every record stands in the list of the node that its value names: if the diagnosis of no node
reports a broken link, then records and connected slots correspond one to one. A slot that reads a value
is named by exactly one record, which stands in the list of the node that is read and says this value;
and a record names a slot that reads its value. -/
theorem records_match_slots_of_unbroken (edits : List Edit)
    (readable : ∀ x s v, (empty.run edits).graph.reads? x s = some v →
      (empty.run edits).graph.Readable v)
    (filed : ∀ p t u, (empty.run edits).graph.record? p t = some u → u.value.node? = some p)
    (unbroken : ∀ n, ¬ (empty.run edits).graph.BrokenAt n) :
    let g := (empty.run edits).graph
    Set.BijOn (fun e => e.2.2.place) g.records g.connectedSlots ∧
    (∀ x s v, v ≠ .null → g.reads? x s = some v →
      ∃ p t, v.node? = some p ∧ g.record? p t = some ⟨x, s, v⟩ ∧
        ∀ q t' u, g.record? q t' = some u → u.user = x → u.slot = s →
          q = p ∧ t' = t ∧ u = ⟨x, s, v⟩) ∧
    ∀ p t u, g.record? p t = some u → g.reads? u.user u.slot = some u.value :=
  (tidy_run edits).graph.one_to_one_of_unbroken readable filed unbroken

theorem records_match_slots_of_unbroken_diamond :
    let g := (empty.run diamond).graph
    (∀ x s v, g.reads? x s = some v → g.Readable v) ∧
      (∀ p t u, g.record? p t = some u → u.value.node? = some p) ∧ (∀ n, ¬ g.BrokenAt n) ∧
      (⟨3⟩, .input 1) ∈ g.connectedSlots ∧
      ∃ e ∈ g.records, e.2.2.place = (⟨3⟩, .input 1) := by
  intro g
  have sym := reachable_diamond.consistent.coherent.symmetric
  have readable : ∀ x s v, g.reads? x s = some v → g.Readable v := fun x s v => sym.readable
  have filed : ∀ p t u, g.record? p t = some u → u.value.node? = some p :=
    fun p t u recorded => (sym.record recorded).1
  have unbroken := sym.not_brokenAt (tidy_run diamond).graph
  have connected : (⟨3⟩, .input 1) ∈ g.connectedSlots := ⟨.result ⟨1⟩ 0, by decide, by decide +kernel⟩
  obtain ⟨bij, -⟩ := records_match_slots_of_unbroken diamond readable filed unbroken
  exact ⟨readable, filed, unbroken, connected, bij.surjOn connected⟩

/-! ## Records in the wrong list -/

/-- After any history, a record in the list of a node that is not the one its value names is reported
with this node, unless its slot reads the recorded value and holds a token equal to that of the record.
If the slot is in order, this is the token of its own record, of which the other one is a double. -/
theorem misfiled_record_reported (edits : List Edit) {n : NodeId} {t : Token} {u : Use}
    (recorded : (empty.run edits).graph.record? n t = some u) (misfiled : u.value.node? ≠ some n) :
    let g := (empty.run edits).graph
    g.BrokenAt n ∨ ∃ p i, p ≠ n ∧ u.value = .result p i ∧
      g.operand? u.user u.slot = some ⟨u.value, some t⟩ ∧
      (g.contains p → ¬ g.BrokenAt u.user → g.record? p t = some u) := by
  intro g
  have tidy := (tidy_run edits).graph
  by_cases broken : g.BrokenAt n
  · exact .inl broken
  · have held := (tidy.not_brokenAt_iff.1 broken).2 t u recorded
    obtain ⟨p, i, value⟩ : ∃ p i, u.value = .result p i := by
      refine Value.exists_of_ne_null fun null => ?_
      cases tidy.operand? held null
    have hp : u.value.node? = some p := congrArg Value.node? value
    refine .inr ⟨p, i, fun same => misfiled (same ▸ hp), value, held, fun contained fine => ?_⟩
    obtain ⟨t', token, recorded'⟩ := (tidy.not_brokenAt_iff.1 fine).1 _ _ p held hp contained
    obtain rfl := Option.some.inj token
    exact recorded'

/-- A history that writes a record into the list of a node by hand, beside a node that reads another
one. -/
def planted (u : Use) : List Edit :=
  let t : TensorType := ⟨.float, [4]⟩
  [.addFunc "main",
    .make { op := .placeholder, name := "x", results := [some t] }, .attach ⟨0⟩ ⟨0⟩ none,
    .make { op := .relu, name := "a", inputs := [.result ⟨0⟩ 0], results := [some t] },
    .attach ⟨1⟩ ⟨0⟩ none,
    .make { op := .placeholder, name := "p", results := [some t] },
    .forceUse ⟨2⟩ u, .attach ⟨2⟩ ⟨0⟩ none]

/-- A record of the use of nothing is reported. -/
theorem misfiled_record_reported_null :
    let u : Use := ⟨⟨1⟩, .predicate, .null⟩
    let g := (empty.run (planted u)).graph
    g.record? ⟨2⟩ ⟨0, 0⟩ = some u ∧ u.value.node? ≠ some ⟨2⟩ ∧ g.BrokenAt ⟨2⟩ := by
  intro u g
  have recorded : g.record? ⟨2⟩ ⟨0, 0⟩ = some u := by decide +kernel
  have misfiled : u.value.node? ≠ some ⟨2⟩ := by decide
  refine ⟨recorded, misfiled, ?_⟩
  rcases misfiled_record_reported (planted u) recorded misfiled with reported | ⟨p, i, -, value, -⟩
  · exact reported
  · cases value

/-- A double of the record of a slot is missed. Both are the first records of their lists, so their
tokens are equal, and the diagnosis of the node with the double finds nothing at all. -/
theorem misfiled_record_missed :
    let u : Use := ⟨⟨1⟩, .input 0, .result ⟨0⟩ 0⟩
    let g := (empty.run (planted u)).graph
    g.record? ⟨2⟩ ⟨0, 0⟩ = some u ∧ u.value.node? ≠ some ⟨2⟩ ∧ g.problemsAt ⟨2⟩ = .ok [] ∧
      ¬ g.BrokenAt ⟨2⟩ := by
  intro u g
  have passed : g.problemsAt ⟨2⟩ = .ok [] := by decide +kernel
  refine ⟨by decide +kernel, by decide, passed, ?_⟩
  rintro ⟨problems, found, user, v, flaw, listed⟩
  cases passed.symm.trans found
  cases listed

end Workspace

end Dataflow
