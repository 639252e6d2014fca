import Dataflow.Proofs.CheckedEdits
import Dataflow.Proofs.Handover
import Dataflow.Proofs.Refusal

/-!
# Internal checks

In a coherent graph every checked edit runs to its end and does what the edit does: no alarm goes off,
whatever the edit is given. The lemmas follow the edits from a single slot (`Symmetric.checked_connect`)
over the walk along collected tokens (`Symmetric.checked_redirect`) and the listing of nodes
(`checked_list`) up to the edits of a workspace (`Consistent.applyChecked_eq`). What is left are the
contracts of which edits speak openly (`Graph.Breach`).
-/

namespace Dataflow

theorem unlessRefused_eq {ε α β : Type} {check : Except ε α} {change : α → Except Alarm β}
    (effect : α → β) (safe : ∀ a, check = .ok a → change a = .ok (effect a)) :
    unlessRefused check change = .ok (check.map effect) := by
  cases checked : check with
  | error e => rfl
  | ok a => rw [unlessRefused, safe a checked]; rfl

theorem bind_eq_error_iff {ε α β : Type} {x : Except ε α} {f : α → Except ε β} {e : ε} :
    x >>= f = .error e ↔ x = .error e ∨ ∃ a, x = .ok a ∧ f a = .error e := by
  cases x <;> simp [bind, Except.bind]

theorem mapError_refused_ne_violated {α : Type} (x : Except Refusal α) (c : Violation) :
    x.mapError Fault.refused ≠ .error (.violated c) := by
  cases x <;> simp [Except.mapError]

namespace Graph

variable {g : Graph}

/-! ## Slots -/

theorem checked_slot {user : NodeId} {s : Slot} {o : Operand} (held : g.operand? user s = some o) :
    Checked.slot g user s = .ok (some o) := by
  obtain ⟨node, stored, held⟩ := operand?_eq_some_iff.1 held
  simp [Checked.slot, stored, held]

/-- The token of a connected slot stands for a record of this slot. -/
theorem Symmetric.checked_forgetUse (sym : g.Symmetric) {user : NodeId} {s : Slot} {o : Operand}
    (held : g.operand? user s = some o) : Checked.forgetUse g user s o = .ok (g.forgetUse o) := by
  rcases sym.slot held with rfl | ⟨p, t, hp, ht, recorded⟩
  · rfl
  · simp [Checked.forgetUse, hp, ht, recorded]

theorem checked_fill {user : NodeId} {s : Slot} {old : Operand} (held : g.operand? user s = some old)
    (o : Operand) : Checked.fill g user s o = .ok (g.modifyNode user (·.setOperand s o)) := by
  rw [Checked.fill, checked_slot held]
  rfl

/-- A slot of a stored node is connected without alarm. -/
theorem Symmetric.checked_connect (sym : g.Symmetric) {user : NodeId} {s : Slot} {old : Operand}
    (held : g.operand? user s = some old) (v : Value) :
    Checked.connect g user s v = .ok (g.connect user s v) := by
  have still : ((g.forgetUse old).recordUse ⟨user, s, v⟩).operand? user s = some old := by
    rw [operand?_recordUse, operand?_forgetUse, held]
  rw [connect_eq held, Checked.connect, checked_slot held]
  by_cases same : old.value = v
  · simp [same, bind, Except.bind, pure, Except.pure]
  · simp only [bind, Except.bind, same, if_false, sym.checked_forgetUse held, checked_fill still]
    rfl

theorem Symmetric.checked_clearSlots (sym : g.Symmetric) {n : NodeId} {slots : List Slot}
    (held : ∀ s ∈ slots, ∃ o, g.operand? n s = some o) :
    Checked.clearSlots g n slots = .ok (g.clearSlots n slots) := by
  unfold Checked.clearSlots Graph.clearSlots
  induction slots generalizing g with
  | nil => rfl
  | cons s slots ih =>
    rw [List.forall_mem_cons] at held
    obtain ⟨⟨old, here⟩, held⟩ := held
    rw [List.foldlM_cons, sym.checked_connect here]
    refine ih (sym.connect n s (readable_null g)) fun s' hs' => ?_
    -- connecting one slot leaves the others in place
    obtain ⟨o, ho⟩ := held s' hs'
    have read : ((g.connect n s .null).reads? n s').isSome := by
      rw [reads?_connect, reads?, ho]
      split_ifs <;> rfl
    rw [reads?, Option.isSome_map] at read
    exact Option.isSome_iff_exists.1 read

/-! ## Redirections -/

/-- Every collected token stands for a record when its turn comes, and the slot of the record holds the
recorded value. -/
theorem Symmetric.checked_redirect (sym : g.Symmetric) {producer : NodeId}
    {goal : Nat → Except Violation Value} {tokens : List Token} (nodup : tokens.Nodup)
    (live : ∀ t ∈ tokens, ∃ u, g.record? producer t = some u)
    (goals : ∀ i v, goal i = .ok v → g.Readable v) (count : Nat) :
    Checked.redirect producer goal tokens g count =
      .ok (Graph.redirect producer goal tokens g count) := by
  induction tokens generalizing g count with
  | nil => rfl
  | cons t tokens ih =>
    rw [List.nodup_cons] at nodup
    rw [List.forall_mem_cons] at live
    obtain ⟨⟨u, here⟩, live⟩ := live
    have held := (sym.record here).2
    obtain ⟨user, stored, slot⟩ := operand?_eq_some_iff.1 held
    have found := here
    unfold record? at found
    simp only [Checked.redirect, Graph.redirect, here, found, stored, slot, checked_slot held, bind,
      Except.bind, Option.map_some, if_true, ne_eq, not_true_eq_false, if_false]
    cases aim : goal u.value.index with
    | error e => rfl
    | ok v =>
      have readable := goals _ v aim
      simp only [sym.checked_connect held]
      refine ih (sym.connect u.user u.slot readable) nodup.2 (fun t' ht' => ?_) (fun i v' hv' =>
        (rewired_connect g u.user u.slot v).readable (goals i v' hv')) (count + 1)
      -- a later token is that of another slot, which the walk has not come to
      obtain ⟨w, recorded⟩ := live t' ht'
      refine ⟨w, sym.record?_connect recorded (fun same => nodup.1 ?_) v⟩
      exact (sym.token_unique recorded here same.1 same.2).2.1 ▸ ht'

theorem Symmetric.checked_redirectUses (sym : g.Symmetric) {p : NodeId} {node : Node}
    (stored : g.node? p = some node) (i? : Option Nat) {goal : Nat → Except Violation Value}
    (goals : ∀ i v, goal i = .ok v → g.Readable v) :
    Checked.redirectUses g p (node.uses.tokensOf i?) goal =
      .ok (g.redirectUses p (node.uses.tokensOf i?) goal) := by
  have live : ∀ t ∈ node.uses.tokensOf i?, ∃ u, g.record? p t = some u := by
    intro t ht
    have listed := List.mem_map_of_mem (f := g.record? p) ht
    rw [map_record?_tokensOf stored] at listed
    obtain ⟨u, -, recorded⟩ := List.mem_map.1 listed
    exact ⟨u, recorded.symm⟩
  rw [Checked.redirectUses, sym.checked_redirect (nodup_tokensOf node.uses i?) live goals]
  rfl

theorem checked_guarded {α β : Type} {check : Except Refusal α}
    {change : α → Except Alarm (Outcome β)} {edit : α → Outcome β}
    (safe : ∀ a, check = .ok a → change a = .ok (edit a)) :
    Checked.guarded g check change = .ok (g.guarded check edit) := by
  cases checked : check with
  | error e => rfl
  | ok a => exact safe a checked

theorem Symmetric.checked_replaceUses (sym : g.Symmetric) (source target : Value) :
    Checked.replaceUses g source target = .ok (g.replaceUses source target) := by
  cases source with
  | null => rfl
  | result p i =>
    refine checked_guarded fun tokens passed => ?_
    obtain ⟨node, found, passed⟩ := bind_eq_ok_iff.1 passed
    obtain ⟨_, readable, passed⟩ := bind_eq_ok_iff.1 passed
    cases passed
    split_ifs
    · rfl
    · refine sym.checked_redirectUses (nodeOrRefusal_eq_ok_iff.1 found) (some i) fun _ v hv => ?_
      cases hv
      exact readable_of_check readable

theorem Symmetric.checked_replaceNode (sym : g.Symmetric) (old new : NodeId) :
    Checked.replaceNode g old new = .ok (g.replaceNode old new) := by
  refine checked_guarded fun (tokens, count) passed => ?_
  obtain ⟨node, found, passed⟩ := bind_eq_ok_iff.1 passed
  obtain ⟨replacement, taken, passed⟩ := bind_eq_ok_iff.1 passed
  cases passed
  dsimp only
  split_ifs
  · rfl
  · refine sym.checked_redirectUses (nodeOrRefusal_eq_ok_iff.1 found) none fun i v hv => ?_
    split_ifs at hv
    cases hv
    exact readable_result (contains_of_node? (nodeOrRefusal_eq_ok_iff.1 taken)) i

theorem Symmetric.checked_clearUses (sym : g.Symmetric) (n : NodeId) :
    Checked.clearUses g n = .ok (g.clearUses n) := by
  refine checked_guarded fun node found => ?_
  refine sym.checked_redirectUses (nodeOrRefusal_eq_ok_iff.1 found) none fun _ v hv => ?_
  cases hv
  exact readable_null g

/-! ## Operands -/

theorem Symmetric.checked_setInput (sym : g.Symmetric) (n : NodeId) (i : Nat) (v : Value) :
    Checked.setInput g n i v = .ok (g.setInput n i v) := by
  refine (unlessRefused_eq (fun _ => g.connect n (.input i) v) fun _ passed => ?_).trans ?_
  · obtain ⟨node, found, passed⟩ := bind_eq_ok_iff.1 passed
    dsimp only at passed
    split_ifs at passed with below
    · have held : g.operand? n (.input i) = some node.inputs[i] :=
        operand?_eq_some_iff.2 ⟨node, nodeOrRefusal_eq_ok_iff.1 (mapError_eq_ok_iff.1 found),
          List.getElem?_eq_getElem below⟩
      exact sym.checked_connect held v
    · cases passed
  · unfold Graph.setInput
    cases g.nodeOrRefusal n with
    | error e => rfl
    | ok node =>
      dsimp only [Except.mapError, bind, Except.bind]
      split_ifs
      · cases g.checkReadable n v <;> rfl
      · rfl

theorem Symmetric.checked_setPredicate (sym : g.Symmetric) (n : NodeId) (v : Value) :
    Checked.setPredicate g n v = .ok (g.setPredicate n v) := by
  refine (unlessRefused_eq (fun _ => g.connect n .predicate v) fun _ passed => ?_).trans ?_
  · obtain ⟨node, found, -⟩ := bind_eq_ok_iff.1 passed
    have held : g.operand? n .predicate = some node.predicate :=
      operand?_eq_some_iff.2 ⟨node, nodeOrRefusal_eq_ok_iff.1 found, rfl⟩
    exact sym.checked_connect held v
  · unfold Graph.setPredicate
    cases g.nodeOrRefusal n with
    | error e => rfl
    | ok node => cases g.checkReadable n v <;> rfl

theorem exists_operand?_of_mem_slots {n : NodeId} {node : Node} (stored : g.node? n = some node)
    {s : Slot} (hs : s ∈ node.slots) : ∃ o, g.operand? n s = some o := by
  obtain ⟨o, held⟩ := Node.mem_slots.1 hs
  exact ⟨o, operand?_eq_some_iff.2 ⟨node, stored, held⟩⟩

theorem Symmetric.checked_clearOperands (sym : g.Symmetric) (n : NodeId) :
    Checked.clearOperands g n = .ok (g.clearOperands n) :=
  unlessRefused_eq _ fun _ found => sym.checked_clearSlots fun _ hs =>
    exists_operand?_of_mem_slots (nodeOrRefusal_eq_ok_iff.1 found) hs

/-! ## Listing -/

/-- A new node is listed before a listed one or at the end without alarm. -/
theorem checked_list (ids : (g.funcs.map (·.id)).Nodup) {f : FuncId} {n : NodeId}
    (fresh : ¬ g.Lists f n) {before? : Option NodeId} (anchor : ∀ b ∈ before?, g.Lists f b) :
    Checked.list g f n before? = .ok (g.modifyRoster f (·.insert? n before?)) := by
  unfold Checked.list
  refine if_pos ?_
  cases found : g.func? f with
  | none => rfl
  | some func =>
    have hf := List.mem_of_find?_eq_some found
    obtain rfl : func.id = f := by simpa using List.find?_some found
    obtain ⟨r, inserted, -⟩ := Roster.mem_insert? (n := n) (mt (lists_iff ids hf).2 fresh)
      fun b hb => (lists_iff ids hf).1 (anchor b hb)
    simp [inserted]

theorem checked_linkOperands (operands : List (Slot × Value)) {n : Node}
    (held : ∀ e ∈ operands, (n.operand? e.1).isSome) :
    Checked.linkOperands operands g n = .ok (Graph.linkOperands operands g n) := by
  induction operands generalizing g n with
  | nil => rfl
  | cons e operands ih =>
    obtain ⟨s, v⟩ := e
    rw [List.forall_mem_cons] at held
    rw [Checked.linkOperands, Graph.linkOperands, if_pos held.1]
    refine ih fun e he => ?_
    rw [Node.operand?_setOperand]
    split_ifs
    · rw [Option.isSome_map]
      exact held.2 e he
    · exact held.2 e he

theorem funcs_linkOperands (operands : List (Slot × Value)) (g : Graph) (n : Node) :
    (Graph.linkOperands operands g n).1.funcs = g.funcs := by
  induction operands generalizing g n with
  | nil => rfl
  | cons e operands ih => exact (ih _ _).trans (rewired_recordUse g _).funcs

/-- A node that is not stored is stored without alarm, if the function lists the anchor. -/
theorem Owned.checked_store (own : g.Owned) {f : FuncId} {n : Node} (absent : g.node? n.id = none)
    {before? : Option NodeId} (anchor : ∀ b ∈ before?, g.Lists f b) :
    Checked.store g f n before? = .ok (g.store f n before?) := by
  have linked := checked_linkOperands (g := g) (n := { n with parent? := some f }) n.operands
    fun e he => by
      obtain ⟨-, o, held, -⟩ := Node.mem_operands.1 he
      exact Option.isSome_iff_exists.2 ⟨o, held⟩
  have funcs := funcs_linkOperands n.operands g { n with parent? := some f }
  have id := id_linkOperands n.operands g { n with parent? := some f }
  unfold Checked.store Graph.store
  dsimp only
  rw [linked]
  generalize Graph.linkOperands n.operands g { n with parent? := some f } = stored at funcs id ⊢
  obtain ⟨h, m⟩ := stored
  dsimp only at funcs id
  have lists (f' : FuncId) (k : NodeId) :
      ({ h with nodes := h.nodes.insert m.id m } : Graph).Lists f' k ↔ g.Lists f' k := by
    simp only [Lists, funcs]
  refine checked_list (by simpa only [funcs] using own.func_ids) (fun listed => ?_) fun b hb =>
    (lists f b).2 (anchor b hb)
  rw [lists, id] at listed
  exact not_contains_iff.2 absent (own.contains listed)

theorem Owned.checked_attach (own : g.Owned) (f : FuncId) {n : Node} (absent : g.node? n.id = none)
    (before? : Option NodeId) :
    Checked.attach g f n before? = .ok (g.attach f n before?) := by
  refine (unlessRefused_eq (fun _ => g.store f n before?) fun _ checked => ?_).trans ?_
  · exact own.checked_store absent (own.checkAttach checked).2.1
  · unfold Graph.attach
    cases g.checkAttach f n before? <;> rfl

/-- New nodes are listed one after the other without alarm. -/
theorem checked_foldlM_list (ids : (g.funcs.map (·.id)).Nodup) {f : FuncId} (exists_ : g.HasFunc f)
    {nodes : List NodeId} (nodup : nodes.Nodup) (fresh : ∀ n ∈ nodes, ¬ g.Lists f n)
    (before? : Option NodeId) (anchor : ∀ b ∈ before?, g.Lists f b) :
    nodes.foldlM (fun g n => Checked.list g f n before?) g =
      .ok (nodes.foldl (fun g n => g.modifyRoster f (·.insert? n before?)) g) := by
  induction nodes generalizing g with
  | nil => rfl
  | cons n nodes ih =>
    rw [List.nodup_cons] at nodup
    rw [List.forall_mem_cons] at fresh
    have lists := lists_insert ids exists_ anchor n
    rw [List.foldlM_cons, checked_list ids fresh.1 anchor]
    refine ih ((ids_modifyRoster g f _).symm ▸ ids) ((hasFunc_modifyRoster g f f _).2 exists_) nodup.2
      (fun m hm listed => ?_) fun b hb => (lists f b).2 (.inl (anchor b hb))
    rcases (lists f m).1 listed with listed | ⟨-, rfl⟩
    · exact fresh.2 m hm listed
    · exact nodup.1 hm

theorem Owned.nodup_of_checkMove (own : g.Owned) {source target : FuncId} {first last : NodeId}
    {before? : Option NodeId} {nodes : List NodeId}
    (checked : g.checkMove source first last target before? = .ok nodes) : nodes.Nodup := by
  obtain ⟨giver, -, taker, -, -, -, found, -⟩ := own.checkMove_eq_ok_iff.1 checked
  obtain ⟨front, back, split, -⟩ := giver.roster.range?_eq_some_iff.1 found
  have nodup := giver.roster.nodup
  rw [split, List.nodup_append] at nodup
  exact (List.nodup_append.1 nodup.1).2.1

/-- A range is moved without alarm: its nodes have been taken off the source, and the target listed
none of them before. -/
theorem Owned.checked_moveRange (own : g.Owned) (source : FuncId) (first last : NodeId)
    (target : FuncId) (before? : Option NodeId) :
    Checked.moveRange g source first last target before? =
      .ok (g.moveRange source first last target before?) := by
  refine (unlessRefused_eq (fun nodes => (g.move nodes source target before?, nodes.length))
    fun nodes checked => ?_).trans ?_
  · obtain ⟨listed, exists_, anchor⟩ := own.checkMove checked
    have ids := ids_foldl_modifyRoster g source (fun n r => r.remove? n) nodes
    have lists := lists_foldl_remove g source target nodes
    have inserted := checked_foldlM_list (f := target) (ids.symm ▸ own.func_ids)
      (by rw [HasFunc, ids]; exact exists_) (own.nodup_of_checkMove checked) (fun n hn taken => ?_)
      before? fun b hb => (lists b).2 (anchor b hb)
    · rw [Checked.move, inserted]
      rfl
    · obtain ⟨taken, kept⟩ := (lists n).1 taken
      exact kept ⟨own.owner_unique taken (listed n hn), hn⟩
  · unfold Graph.moveRange
    cases g.checkMove source first last target before? <;> rfl

/-! ## Erasing -/

theorem Symmetric.checked_eraseNode (sym : g.Symmetric) (f : FuncId) (n : NodeId) :
    Checked.eraseNode g f n = .ok (g.eraseNode f n) := by
  unfold Checked.eraseNode Graph.eraseNode
  cases g.checkOwned f n with
  | error e => rfl
  | ok _ =>
    cases found : g.nodeOrRefusal n with
    | error e => simp [Checked.guarded, Graph.guarded, Graph.clearOperands, found, bind, Except.bind]
    | ok node =>
      have cleared := sym.checked_clearSlots fun s hs =>
        exists_operand?_of_mem_slots (nodeOrRefusal_eq_ok_iff.1 found) hs
      have detached := (sym.clearSlots n node.slots).checked_clearUses n
      simp only [Checked.guarded, Graph.guarded, Graph.clearOperands, found, bind, Except.bind, pure,
        Except.pure, cleared, detached]
      generalize (g.clearSlots n node.slots).clearUses n = outcome
      obtain ⟨h, e | _⟩ := outcome <;> rfl

theorem Coherent.checked_eraseNodes (co : g.Coherent) (f : FuncId) (nodes : List NodeId) :
    Checked.eraseNodes f nodes g = .ok (Graph.eraseNodes f nodes g) := by
  induction nodes generalizing g with
  | nil => rfl
  | cons n nodes ih =>
    have left := co.eraseNode_evolves f n
    rw [Checked.eraseNodes, Graph.eraseNodes, co.symmetric.checked_eraseNode]
    generalize g.eraseNode f n = outcome at left
    obtain ⟨h, e | _⟩ := outcome
    · rfl
    · exact ih left.coherent

theorem Coherent.checked_eraseFunc (co : g.Coherent) (f : FuncId) :
    Checked.eraseFunc g f = .ok (g.eraseFunc f) := by
  refine checked_guarded fun func _ => ?_
  rw [co.checked_eraseNodes]
  generalize Graph.eraseNodes f func.nodes g = outcome
  obtain ⟨h, e | _⟩ := outcome <;> rfl

/-! ## Uses -/

/-- The uses of a value are found among records of values of the same node. -/
theorem Symmetric.checked_usesOf (sym : g.Symmetric) (v : Value) :
    Checked.usesOf g v = .ok (g.usesOf v) := by
  refine if_pos ?_
  cases v.node? with
  | none => rfl
  | some p => simpa using fun u hu => (sym.mem_allUses.1 hu).2

/-! ## Contracts -/

/-- The contracts of the edits of a graph, and what is said when one is broken: an input that is set and
a result that is typed must be there, and so must, in a replacement, every result that is read. The
records are gone through in order, and the first one without a counterpart is reported. -/
inductive Breach (g : Graph) : Edit → Violation → Prop
  | input {n : NodeId} {node : Node} {i : Nat} (v : Value) (stored : g.node? n = some node)
      (beyond : node.inputs.length ≤ i) :
      Breach g (.setInput n i v) (.noInput n node.inputs.length i)
  | result {n : NodeId} {node : Node} {i : Nat} (t : TensorType) (stored : g.node? n = some node)
      (beyond : node.results.length ≤ i) :
      Breach g (.setType n i t) (.noResultToType n node.results.length i)
  | counterpart {old new : NodeId} {replacement : Node} {u : Use} (ne : old ≠ new)
      (found : g.node? new = some replacement)
      (first : (g.allUses old).find? (replacement.results.length ≤ ·.value.index) = some u) :
      Breach g (.replaceNode old new) (.noCounterpart new u.value.index old)

theorem setInput_eq_violated_iff {n : NodeId} {i : Nat} {v : Value} {c : Violation} :
    g.setInput n i v = .error (.violated c) ↔ g.Breach (.setInput n i v) c := by
  constructor
  · intro failed
    rcases bind_eq_error_iff.1 failed with failed | ⟨node, found, failed⟩
    · exact absurd failed (mapError_refused_ne_violated _ c)
    · have stored := nodeOrRefusal_eq_ok_iff.1 (mapError_eq_ok_iff.1 found)
      dsimp only at failed
      split_ifs at failed with below
      · rcases bind_eq_error_iff.1 failed with failed | ⟨_, -, failed⟩
        · exact absurd failed (mapError_refused_ne_violated _ c)
        · cases failed
      · cases failed
        exact .input v stored (Nat.not_lt.1 below)
  · intro breach
    cases breach with
    | input _ stored beyond =>
      rw [Graph.setInput, nodeOrRefusal_eq_ok_iff.2 stored]
      exact if_neg (Nat.not_lt.2 beyond)

theorem Owned.setType_eq_violated_iff (own : g.Owned) {n : NodeId} {i : Nat} {t : TensorType}
    {c : Violation} : g.setType n i t = .error (.violated c) ↔ g.Breach (.setType n i t) c := by
  constructor
  · intro failed
    rcases bind_eq_error_iff.1 failed with failed | ⟨node, found, failed⟩
    · exact absurd failed (mapError_refused_ne_violated _ c)
    · have stored := nodeOrRefusal_eq_ok_iff.1 (mapError_eq_ok_iff.1 found)
      rw [Node.setType] at failed
      split_ifs at failed with below
      · cases failed
      · cases failed
        rw [own.node_id stored]
        exact .result t stored (Nat.not_lt.1 below)
  · intro breach
    cases breach with
    | @result _ node _ _ stored beyond =>
      have failed : node.setType i t = .error (.noResultToType n node.results.length i) := by
        rw [Node.setType, if_neg (Nat.not_lt.2 beyond), own.node_id stored]
      simp only [Graph.setType, nodeOrRefusal_eq_ok_iff.2 stored, Except.mapError, bind, Except.bind,
        failed]

theorem guarded_ne_violated {α β : Type} {check : Except Refusal α} {edit : α → Outcome β}
    {c : Violation} (keeps : ∀ a, check = .ok a → (edit a).2 ≠ .error (.violated c)) :
    (g.guarded check edit).2 ≠ .error (.violated c) := by
  cases checked : check with
  | error e => exact nofun
  | ok a => exact keeps a checked

theorem Symmetric.replaceUses_ne_violated (sym : g.Symmetric) (source target : Value)
    (c : Violation) : (g.replaceUses source target).2 ≠ .error (.violated c) := by
  cases source with
  | null => exact nofun
  | result p i =>
    refine guarded_ne_violated fun tokens passed => ?_
    obtain ⟨node, found, passed⟩ := bind_eq_ok_iff.1 passed
    obtain ⟨_, readable, passed⟩ := bind_eq_ok_iff.1 passed
    cases passed
    split_ifs
    · exact nofun
    · rw [sym.redirectUses_eq (nodeOrRefusal_eq_ok_iff.1 found) (some i) _ (fun _ => target)
        fun _ _ => ⟨rfl, readable_of_check readable⟩]
      exact nofun

theorem Symmetric.clearUses_ne_violated (sym : g.Symmetric) (n : NodeId) (c : Violation) :
    (g.clearUses n).2 ≠ .error (.violated c) := by
  cases stored : g.node? n with
  | none => simp [Graph.clearUses, nodeOrRefusal, stored, Graph.guarded]
  | some node =>
    intro failed
    rw [sym.clearUses_eq stored] at failed
    cases failed

/-- A replacement is broken off exactly at the first record without a counterpart. -/
theorem Symmetric.replaceNode_eq_violated_iff (sym : g.Symmetric) {old new : NodeId} {c : Violation} :
    (g.replaceNode old new).2 = .error (.violated c) ↔ g.Breach (.replaceNode old new) c := by
  constructor
  · intro failed
    cases stored : g.node? old with
    | none =>
      simp [Graph.replaceNode, nodeOrRefusal, stored, Graph.guarded, bind, Except.bind] at failed
    | some node =>
      cases found : g.node? new with
      | none =>
        simp [Graph.replaceNode, nodeOrRefusal, stored, found, Graph.guarded, bind,
          Except.bind] at failed
      | some replacement =>
        have contained := contains_of_node? stored
        by_cases ne : old = new
        · subst ne
          rw [replaceNode_self contained] at failed
          cases failed
        · obtain ⟨handed, kept, split, below, above⟩ := exists_split_of_first
            (fun u : Use => u.value.index < replacement.results.length) (g.allUses old)
          simp only [Nat.not_lt] at above
          rw [sym.replaceNode_eq contained found ne split below above] at failed
          cases kept with
          | nil => cases failed
          | cons u kept =>
            cases failed
            exact .counterpart ne found (List.find?_eq_some_iff_append.2
              ⟨by simpa using above u rfl, handed, kept, split, by simpa using below⟩)
  · intro breach
    cases breach with
    | counterpart ne found first =>
      obtain ⟨beyond, handed, kept, split, below⟩ := List.find?_eq_some_iff_append.1 first
      obtain ⟨t, recorded⟩ := Graph.mem_allUses.1 (List.mem_of_find?_eq_some first)
      obtain ⟨node, stored, -⟩ := record?_eq_some_iff.1 recorded
      rw [sym.replaceNode_eq (contains_of_node? stored) found ne split (by simpa using below)
        (by simpa using beyond)]
      rfl

end Graph

/-- Whether an edit changes the graph, rather than a free node or the supply of identities. -/
def Edit.ofGraph : Edit → Bool
  | .addFunc .. | .eraseFunc .. | .attach .. | .setInput .. | .setPredicate .. | .setType ..
  | .setName .. | .clearOperands .. | .replaceUses .. | .replaceNode .. | .clearUses ..
  | .eraseNode .. | .moveRange .. => true
  | _ => false

namespace Workspace

variable {w : Workspace}

/-- No alarm goes off, and the checked edit does what the edit does. -/
theorem Consistent.applyChecked_eq (co : w.Consistent) (e : Edit) :
    w.applyChecked e = .ok (w.apply e) := by
  have sym := co.coherent.symmetric
  have own := co.coherent.owned
  cases e with
  | eraseFunc f => rw [applyChecked, co.coherent.checked_eraseFunc]; rfl
  | attach n f before? =>
    rw [applyChecked, attachChecked, Workspace.apply, Workspace.attach]
    cases held : w.drafts[n]? with
    | none => rfl
    | some d =>
      obtain ⟨id, -, -, absent⟩ := co.draft held
      dsimp only
      rw [own.checked_attach f (id.symm ▸ absent)]
      cases w.graph.attach f d before? <;> rfl
  | setInput n i v => rw [applyChecked, sym.checked_setInput]; rfl
  | setPredicate n v => rw [applyChecked, sym.checked_setPredicate]; rfl
  | clearOperands n => rw [applyChecked, sym.checked_clearOperands]; rfl
  | replaceUses source target => rw [applyChecked, sym.checked_replaceUses]; rfl
  | replaceNode old new => rw [applyChecked, sym.checked_replaceNode]; rfl
  | clearUses n => rw [applyChecked, sym.checked_clearUses]; rfl
  | eraseNode f n => rw [applyChecked, sym.checked_eraseNode]; rfl
  | moveRange source first last target before? => rw [applyChecked, own.checked_moveRange]; rfl
  | _ => rfl

theorem edit_eq_error_iff {result : Except Fault (Graph × Reply)} {e : Fault} :
    (w.edit result).2 = .error e ↔ result = .error e := by
  unfold edit
  cases result <;> simp

theorem attach_ne_violated (n : NodeId) (f : FuncId) (before? : Option NodeId) (c : Violation) :
    (w.attach n f before?).2 ≠ .error (.violated c) := by
  unfold attach
  split
  · exact nofun
  · split <;> exact nofun

/-- An edit of the graph breaks no contract but its own. -/
theorem Consistent.eq_violated_iff (co : w.Consistent) {e : Edit} (edits : e.ofGraph) {c : Violation} :
    (w.apply e).2 = .error (.violated c) ↔ w.graph.Breach e c := by
  have sym := co.coherent.symmetric
  cases e with
  | setInput => exact (edit_eq_error_iff.trans map_eq_error_iff).trans Graph.setInput_eq_violated_iff
  | setType =>
    exact (edit_eq_error_iff.trans map_eq_error_iff).trans co.coherent.owned.setType_eq_violated_iff
  | replaceNode => exact editPartly_eq_error_iff.trans sym.replaceNode_eq_violated_iff
  | addFunc => exact iff_of_false nofun nofun
  | attach n f before? => exact iff_of_false (attach_ne_violated n f before? c) nofun
  | setPredicate | setName | clearOperands | moveRange =>
    exact iff_of_false (fun failed => mapError_refused_ne_violated _ c (edit_eq_error_iff.1 failed))
      nofun
  | replaceUses source target =>
    exact iff_of_false (mt editPartly_eq_error_iff.1 (sym.replaceUses_ne_violated source target c))
      nofun
  | clearUses n =>
    exact iff_of_false (mt editPartly_eq_error_iff.1 (sym.clearUses_ne_violated n c)) nofun
  | eraseFunc f =>
    refine iff_of_false (fun failed => ?_) nofun
    obtain ⟨-, eq⟩ := co.coherent.eraseFunc_eq_error_iff.1 (editPartly_eq_error_iff.1 failed)
    cases eq
  | eraseNode f n =>
    refine iff_of_false (fun failed => ?_) nofun
    rcases co.coherent.eraseNode_eq_error_iff.1 (editPartly_eq_error_iff.1 failed) with
      ⟨-, eq⟩ | ⟨-, -, eq⟩ <;> cases eq
  | _ => cases edits

/-- In a reachable workspace no internal check fails, whatever edit comes next and whatever it is given:
every collected token still stands for a record when its turn comes, and the slot holds what the record
says; the token of a connected slot stands for a record of this slot; slots that are looked up are
there; no node is listed twice or at a place that is not there; and the records met on the way to the
uses of a value are those of its node. So an edit of the graph violates a contract exactly if it sets
an input or types a result that is not there, or replaces a node by one that lacks a result which is
read. -/
theorem Reachable.internal_checks_hold (reach : w.Reachable) :
    (∀ e, w.applyChecked e = .ok (w.apply e)) ∧
    (∀ v, Graph.Checked.usesOf w.graph v = .ok (w.graph.usesOf v)) ∧
    ∀ e, e.ofGraph → ∀ c, (w.apply e).2 = .error (.violated c) ↔ w.graph.Breach e c := by
  have co := reach.consistent
  exact ⟨co.applyChecked_eq, co.coherent.symmetric.checked_usesOf,
    fun e edits c => co.eq_violated_iff edits⟩

/-- Replacing a node by one that lacks a result which is read is broken off by the contract, half way
through the records, and by no alarm. -/
theorem internal_checks_hold_lopsided :
    let w := empty.run lopsided
    let e : Edit := .replaceNode ⟨1⟩ ⟨2⟩
    w.Reachable ∧ ∃ left,
      w.applyChecked e = .ok (left, .error (.violated (.noCounterpart ⟨2⟩ 1 ⟨1⟩))) ∧
        left.graph.allUses ⟨1⟩ = [⟨⟨3⟩, .input 1, .result ⟨1⟩ 1⟩] := by
  intro w e
  obtain ⟨silent, -, contracts⟩ := Reachable.internal_checks_hold reachable_lopsided
  have replacement : w.graph.node? ⟨2⟩ = some _ := rfl
  have broken : (w.apply e).2 = .error (.violated (.noCounterpart ⟨2⟩ 1 ⟨1⟩)) :=
    (contracts e rfl _).2 (.counterpart (u := ⟨⟨3⟩, .input 1, .result ⟨1⟩ 1⟩) (by decide) replacement
      (by decide))
  refine ⟨reachable_lopsided, (w.apply e).1, ?_, by decide +kernel⟩
  rw [silent, ← broken]

-- A record that is written by hand, and that the slot it names knows nothing of, sets off an alarm.
example :
    let stray : Use := ⟨⟨0⟩, .predicate, .result ⟨0⟩ 0⟩
    let w := empty.run [.addFunc "main", .make { op := .placeholder, name := "x", results := [none] },
      .forceUse ⟨0⟩ stray, .attach ⟨0⟩ ⟨0⟩ none]
    (Graph.Checked.clearUses w.graph ⟨0⟩).map (·.2) = .error (.staleRecord stray) := by
  decide +kernel

end Workspace

end Dataflow
