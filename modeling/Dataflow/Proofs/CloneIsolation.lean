import Dataflow.Proofs.Attachment
import Dataflow.Proofs.SlotEdits
import Dataflow.Proofs.StructuralEquality

/-!
# Copies

A copy has a new identity, which no slot of the graph names, and its slots hold no tokens. So it is the
only node that can come to read itself by edits of its own, and whatever these do, every other node keeps
its slots and tokens: the only records that come and go are those of uses by the copy
(`Consistent.sparesOthers_run`).
-/

namespace Dataflow

/-- The node without its uses. -/
def Node.unused (n : Node) : Node := { n with uses := .empty }

@[simp] theorem Node.operand?_unused (n : Node) (s : Slot) : n.unused.operand? s = n.operand? s := by
  cases s <;> rfl

/-- The node that an edit is made on, if it is made on a single one. -/
def Edit.subject? : Edit → Option NodeId
  | .pushInput n _ | .setDraftInput n .. | .setDraftPredicate n _ | .addResult n _
  | .setDraftType n .. | .setDraftName n _ | .forceParent n _ | .forceUse n _ | .attach n ..
  | .setInput n .. | .setPredicate n _ | .setType n .. | .setName n _ | .clearOperands n
  | .clearUses n | .eraseNode _ n => some n
  | .reserveNode | .reserveFunc | .make _ | .clone _ | .addFunc _ | .eraseFunc _ | .replaceUses ..
  | .replaceNode .. | .moveRange .. => none

/-- Records of uses by `c` that are added do not count where uses by `c` do not. -/
theorem UseList.filter_entries_foldl_add {c : NodeId} {us : List Use} (own : ∀ u ∈ us, u.user = c)
    (l : UseList) : (us.foldl .add l).entries.filter (·.2.user ≠ c) =
      l.entries.filter (·.2.user ≠ c) := by
  induction us generalizing l with
  | nil => rfl
  | cons u us ih =>
    rw [List.forall_mem_cons] at own
    rw [List.foldl_cons, ih own.2, entries_add, List.filter_append]
    simp [own.1]

namespace Graph

/-- Of the nodes other than `c` only the records of uses by `c` differ. -/
structure SparesOthers (g : Graph) (c : NodeId) (h : Graph) : Prop where
  node : ∀ n, n ≠ c → (h.node? n).map Node.unused = (g.node? n).map Node.unused
  entries : ∀ n, n ≠ c →
    (h.entriesOf n).filter (·.2.user ≠ c) = (g.entriesOf n).filter (·.2.user ≠ c)

/-- No node but `c` itself reads `c`. -/
def ReadsItselfOnly (g : Graph) (c : NodeId) : Prop :=
  ∀ x s v, g.reads? x s = some v → v.node? = some c → x = c

variable {g h k : Graph} {c : NodeId}

theorem SparesOthers.refl (g : Graph) (c : NodeId) : g.SparesOthers c g :=
  ⟨fun _ _ => rfl, fun _ _ => rfl⟩

theorem SparesOthers.trans (first : g.SparesOthers c h) (rest : h.SparesOthers c k) :
    g.SparesOthers c k :=
  ⟨fun n ne => (rest.node n ne).trans (first.node n ne),
    fun n ne => (rest.entries n ne).trans (first.entries n ne)⟩

theorem sparesOthers_of_node? (same : ∀ n, n ≠ c → h.node? n = g.node? n) : g.SparesOthers c h :=
  ⟨fun n ne => by rw [same n ne], fun n ne => by rw [entriesOf, same n ne, entriesOf]⟩

theorem SparesOthers.reads? (spares : g.SparesOthers c h) {x : NodeId} (ne : x ≠ c) (s : Slot) :
    h.reads? x s = g.reads? x s := by
  have same := congrArg (Option.bind · (·.operand? s)) (spares.node x ne)
  simp only [Option.bind_map, Function.comp_def, Node.operand?_unused] at same
  rw [Graph.reads?, operand?, same, Graph.reads?, operand?]

theorem SparesOthers.readsItselfOnly (spares : g.SparesOthers c h) (alone : g.ReadsItselfOnly c) :
    h.ReadsItselfOnly c := by
  intro x s v read hc
  by_contra ne
  exact ne (alone x s v (spares.reads? ne s ▸ read) hc)

/-! ## Edits of one node -/

theorem sparesOthers_modifyNode (g : Graph) (c : NodeId) (f : Node → Node) :
    g.SparesOthers c (g.modifyNode c f) :=
  sparesOthers_of_node? fun n ne => by rw [node?_modifyNode, if_neg ne.symm]

theorem sparesOthers_discard (g : Graph) (f : FuncId) (c : NodeId) :
    g.SparesOthers c (g.discard f c) :=
  sparesOthers_of_node? fun n ne => by rw [node?_discard, if_neg ne.symm]

theorem Symmetric.sparesOthers_connect (sym : g.Symmetric) (c : NodeId) (s : Slot) (v : Value) :
    g.SparesOthers c (g.connect c s v) := by
  cases held : g.operand? c s with
  | none =>
    rw [connect_of_none held]
    exact .refl g c
  | some o =>
    by_cases same : o.value = v
    · rw [connect_eq held, if_pos same]
      exact .refl g c
    refine ⟨fun n ne => ?_, fun n ne => ?_⟩
    · rw [connect_eq held, if_neg same, link, node?_modifyNode, if_neg ne.symm, node?_recordUse,
        node?_forgetUse]
      cases g.node? n with
      | none => rfl
      | some node =>
        cases o.token? <;> by_cases old : o.value.node? = some n <;>
          by_cases new : v.node? = some n <;> simp [old, new, Node.unused]
    · have added : (if v.node? = some n then
          ((g.forgetUse o).nextToken? v).toList.map fun t => (t, (⟨c, s, v⟩ : Use)) else []).filter
            (·.2.user ≠ c) = [] := by
        rw [List.filter_eq_nil_iff]
        intro e he
        split_ifs at he with hn
        · obtain ⟨t, -, rfl⟩ := List.mem_map.1 he
          simp
        · cases he
      rw [sym.entriesOf_connect held same, List.filter_append, added, List.append_nil,
        List.filter_filter]
      refine List.filter_congr fun e _ => ?_
      by_cases own : e.2.user = c <;> simp [own, Use.place]

theorem Symmetric.sparesOthers_connectAll (sym : g.Symmetric) {f : Use → Value} {us : List Use}
    (own : ∀ u ∈ us, u.user = c) (readable : ∀ u ∈ us, g.Readable (f u)) :
    g.SparesOthers c (g.connectAll f us) := by
  unfold Graph.connectAll
  induction us generalizing g with
  | nil => exact .refl g c
  | cons u us ih =>
    rw [List.forall_mem_cons] at own readable
    obtain ⟨rfl, own⟩ := own
    exact (sym.sparesOthers_connect u.user u.slot (f u)).trans
      (ih (sym.connect u.user u.slot readable.1) own fun w hw =>
        (rewired_connect g u.user u.slot (f u)).readable (readable.2 w hw))

theorem clearSlots_eq_connectAll (g : Graph) (n : NodeId) (slots : List Slot) :
    g.clearSlots n slots = g.connectAll (fun _ => .null) (slots.map (⟨n, ·, .null⟩)) := by
  rw [connectAll, List.foldl_map]
  rfl

theorem Symmetric.sparesOthers_clearSlots (sym : g.Symmetric) (c : NodeId) (slots : List Slot) :
    g.SparesOthers c (g.clearSlots c slots) := by
  rw [clearSlots_eq_connectAll]
  refine sym.sparesOthers_connectAll (fun u hu => ?_) fun _ _ => readable_null g
  obtain ⟨s, -, rfl⟩ := List.mem_map.1 hu
  rfl

/-- The users of a node that no other one reads are disconnected. -/
theorem Symmetric.sparesOthers_clearUses (sym : g.Symmetric) (alone : g.ReadsItselfOnly c) :
    g.SparesOthers c (g.clearUses c).1 := by
  cases stored : g.node? c with
  | none =>
    have missing := nodeOrRefusal_eq_error_iff.2 ⟨not_contains_iff.2 stored, rfl⟩
    rw [clearUses, guarded_of_error missing]
    exact .refl g c
  | some node =>
    rw [sym.clearUses_eq stored]
    refine sym.sparesOthers_connectAll (fun u hu => ?_) fun _ _ => readable_null g
    obtain ⟨read, hc, -⟩ := (sym.mem_recordsOf stored).1 hu
    exact alone u.user u.slot u.value read hc

theorem Symmetric.sparesOthers_eraseNode (sym : g.Symmetric) (alone : g.ReadsItselfOnly c)
    (f : FuncId) : g.SparesOthers c (g.eraseNode f c).1 := by
  refine guarded_of_forall (.refl g c) fun h passed => ?_
  obtain ⟨_, -, cleared⟩ := bind_eq_ok_iff.1 passed
  obtain ⟨slots, rfl⟩ := exists_of_clearOperands cleared
  have first := sym.sparesOthers_clearSlots c slots
  have left := first.trans
    ((sym.clearSlots c slots).sparesOthers_clearUses (first.readsItselfOnly alone))
  generalize (g.clearSlots c slots).clearUses c = outcome at left
  obtain ⟨h, e | _⟩ := outcome
  · exact left
  · exact left.trans (sparesOthers_discard h f c)

theorem sparesOthers_store {n : Node} (absent : g.node? n.id = none)
    (readable : ∀ e ∈ n.operands, g.Readable e.2) (f : FuncId) (before? : Option NodeId) :
    g.SparesOthers n.id (g.store f n before?) := by
  have made (m : NodeId) : ∀ u ∈ n.usesMadeOf m, u.user = n.id := fun u hu => by
    obtain ⟨⟨s, v⟩, -, he⟩ := List.mem_filterMap.1 hu
    dsimp only at he
    split_ifs at he
    obtain rfl := Option.some.inj he
    rfl
  refine ⟨fun m ne => ?_, fun m ne => ?_⟩
  · rw [node?_store_of_ne absent readable f before? ne, Option.map_map]
    rfl
  · rw [entriesOf, node?_store_of_ne absent readable f before? ne, entriesOf]
    cases g.node? m with
    | none => rfl
    | some node => exact UseList.filter_entries_foldl_add (made m) node.uses

end Graph

namespace Workspace

/-- Of the nodes other than `c`, free or stored, only the records of uses by `c` differ. -/
structure SparesOthers (w : Workspace) (c : NodeId) (w' : Workspace) : Prop where
  draft : ∀ n, n ≠ c → w'.drafts[n]? = w.drafts[n]?
  graph : w.graph.SparesOthers c w'.graph

variable {w : Workspace} {c : NodeId}

theorem SparesOthers.refl (w : Workspace) (c : NodeId) : w.SparesOthers c w :=
  ⟨fun _ _ => rfl, .refl w.graph c⟩

theorem sparesOthers_drop (w : Workspace) (c : NodeId) : w.SparesOthers c (w.drop c) :=
  ⟨fun n ne => by rw [drafts_drop, if_neg ne.symm], .refl w.graph c⟩

theorem sparesOthers_keep (w : Workspace) (d : Node) : w.SparesOthers d.id (w.keep d) :=
  ⟨fun n ne => by rw [drafts_keep, if_neg ne.symm], .refl w.graph d.id⟩

/-! ## Edits of one node -/

theorem Consistent.sparesOthers_changeDraft (co : w.Consistent) (c : NodeId)
    {change : Node → Except Violation Node} (retains : Node.Retains change) :
    w.SparesOthers c (w.changeDraft c change).1 := by
  refine changeDraft_of_forall (.refl w c) fun old d held done => ?_
  obtain rfl : d.id = c := (retains old d done).1.trans (co.draft held).1
  exact sparesOthers_keep w d

theorem Consistent.sparesOthers_guardDraft (co : w.Consistent) (c : NodeId) (v : Value) :
    w.SparesOthers c (w.guardDraft c v).1 := by
  refine guardDraft_of_forall (.refl w c) (sparesOthers_drop w c) fun old d held done => ?_
  obtain rfl : d.id = c := (Node.retains_setPredicate v old d done).1.trans (co.draft held).1
  exact sparesOthers_keep w d

theorem Consistent.sparesOthers_attach (co : w.Consistent) (c : NodeId) (f : FuncId)
    (before? : Option NodeId) : w.SparesOthers c (w.attach c f before?).1 := by
  have dropped := sparesOthers_drop w c
  refine attach_of_forall (.refl w c) dropped fun d h held done => ?_
  obtain ⟨rfl, -, -, absent⟩ := co.draft held
  obtain ⟨rfl, -, -, readable⟩ := co.coherent.owned.eq_of_attach done
  exact ⟨dropped.draft, Graph.sparesOthers_store absent readable f before?⟩

/-- An edit of a node that no other one reads spares the others. -/
theorem Consistent.sparesOthers_apply (co : w.Consistent) (alone : w.graph.ReadsItselfOnly c)
    {e : Edit} (subject : e.subject? = some c) (honest : e.plantsUse = false) :
    w.SparesOthers c (w.apply e).1 := by
  have sym := co.coherent.symmetric
  have map {α : Type} {result : Except Fault α} {reply : α → Graph × Reply}
      (done : ∀ a, result = .ok a → w.graph.SparesOthers c (reply a).1) :
      w.SparesOthers c (w.edit (result.map reply)).1 :=
    editMap_of_forall (.refl w c) fun a ok => ⟨fun _ _ => rfl, done a ok⟩
  have mapError {α : Type} {result : Except Refusal α} {reply : α → Graph × Reply}
      (done : ∀ a, result = .ok a → w.graph.SparesOthers c (reply a).1) :
      w.SparesOthers c (w.edit ((result.map reply).mapError .refused)).1 :=
    editMapError_of_forall (.refl w c) fun a ok => ⟨fun _ _ => rfl, done a ok⟩
  cases e with
  | reserveNode | reserveFunc | make | clone | addFunc | eraseFunc | replaceUses | replaceNode
  | moveRange => cases subject
  | forceUse => cases honest
  | pushInput n v =>
    cases subject
    exact co.sparesOthers_changeDraft c (Node.retains_pushInput v)
  | setDraftInput n i v =>
    cases subject
    exact co.sparesOthers_changeDraft c (Node.retains_setInput i v)
  | setDraftPredicate n v =>
    cases subject
    exact co.sparesOthers_guardDraft c v
  | addResult n t? =>
    cases subject
    exact co.sparesOthers_changeDraft c (Node.retains_addResult t?)
  | setDraftType n i t =>
    cases subject
    exact co.sparesOthers_changeDraft c (Node.retains_setType i t)
  | setDraftName n name =>
    cases subject
    exact co.sparesOthers_changeDraft c (Node.retains_rename name)
  | forceParent n parent? =>
    cases subject
    exact co.sparesOthers_changeDraft c (Node.retains_reparent parent?)
  | attach n f before? =>
    cases subject
    exact co.sparesOthers_attach c f before?
  | setInput n i v =>
    cases subject
    refine map fun h ok => ?_
    obtain ⟨-, rfl⟩ := Graph.eq_of_setInput ok
    exact sym.sparesOthers_connect c (.input i) v
  | setPredicate n v =>
    cases subject
    refine mapError fun h ok => ?_
    obtain ⟨-, rfl⟩ := Graph.eq_of_setPredicate ok
    exact sym.sparesOthers_connect c .predicate v
  | setType n i t =>
    cases subject
    refine map fun h ok => ?_
    obtain ⟨f, rfl, -⟩ := Graph.exists_of_setType ok
    exact Graph.sparesOthers_modifyNode w.graph c f
  | setName n name =>
    cases subject
    refine mapError fun h ok => ?_
    rw [Graph.eq_of_setName ok]
    exact Graph.sparesOthers_modifyNode w.graph c _
  | clearOperands n =>
    cases subject
    refine mapError fun h ok => ?_
    obtain ⟨slots, rfl⟩ := Graph.exists_of_clearOperands ok
    exact sym.sparesOthers_clearSlots c slots
  | clearUses n =>
    cases subject
    exact ⟨fun _ _ => rfl, sym.sparesOthers_clearUses alone⟩
  | eraseNode f n =>
    cases subject
    exact ⟨fun _ _ => rfl, sym.sparesOthers_eraseNode alone f⟩

/-- Edits of a node that no other one reads spare the others. -/
theorem Consistent.sparesOthers_run (co : w.Consistent) (alone : w.graph.ReadsItselfOnly c)
    {edits : List Edit} (own : ∀ e ∈ edits, e.subject? = some c ∧ e.plantsUse = false) :
    w.SparesOthers c (w.run edits) := by
  unfold Workspace.run
  induction edits generalizing w with
  | nil => exact .refl w c
  | cons e edits ih =>
    rw [List.forall_mem_cons] at own
    obtain ⟨⟨subject, honest⟩, own⟩ := own
    have first := co.sparesOthers_apply alone subject honest
    have rest := ih (co.apply honest).consistent (first.graph.readsItselfOnly alone) own
    exact ⟨fun n ne => (rest.draft n ne).trans (first.draft n ne), first.graph.trans rest.graph⟩

/-- What is spared by a node that nothing names is found again, with all of its records. -/
theorem Consistent.exists_spared (co : w.Consistent) {w' : Workspace} (spares : w.SparesOthers c w')
    (absent : w.graph.node? c = none) {m : NodeId} (ne : m ≠ c) {old : Node}
    (found : w.node? m = some old) :
    ∃ new, w'.node? m = some new ∧ new.unused = old.unused ∧
      new.uses.entries.filter (·.2.user ≠ c) = old.uses.entries := by
  have draft := spares.draft m ne
  cases held : w.drafts[m]? with
  | some d =>
    obtain rfl := Option.some.inj (found.symm.trans (node?_of_held held))
    refine ⟨old, node?_of_held (draft.trans held), rfl, ?_⟩
    rw [(co.draft held).2.1.uses]
    rfl
  | none =>
    rw [node?_of_unheld held] at found
    have same := spares.graph.node m ne
    rw [found, Option.map_some, Option.map_eq_some_iff] at same
    obtain ⟨new, stored, unused⟩ := same
    refine ⟨new, (node?_of_unheld (draft.trans held)).trans stored, unused, ?_⟩
    have entries := spares.graph.entries m ne
    rw [Graph.entriesOf_of_stored stored, Graph.entriesOf_of_stored found] at entries
    rw [entries, List.filter_eq_self]
    rintro ⟨t, u⟩ he
    have recorded := Graph.record?_eq_some_iff_mem.2 ⟨old, found, he⟩
    exact decide_eq_true ((co.not_named absent).2 m t u recorded).1

/-- In a reachable workspace every node can be copied. The copy has an identity that has not been given
out before, is structurally equal to the original and has its name, but no parent, no uses and no
tokens. Whatever edits are made on the copy, every node that was there, the original among them, stays as
it is, with the same slots and tokens; its use list keeps its records and changes by those of uses by the
copy only. -/
theorem Reachable.clone_isolation (reach : w.Reachable) {n : NodeId} {node : Node}
    (found : w.node? n = some node) :
    ∃ c copied copy, w.apply (.clone n) = (copied, .ok (.node c)) ∧
      (w.stage c = .unissued ∧ w.node? c = none) ∧
      copied.drafts[c]? = some copy ∧ copy.id = c ∧ copy.name = node.name ∧ copy.op = node.op ∧
      copy.results = node.results ∧ copy.inputValues = node.inputValues ∧
      copy.predicate.value = node.predicate.value ∧ copy.isEqual node = true ∧
      copy.parent? = none ∧ copy.uses = .empty ∧ (∀ s o, copy.operand? s = some o → o.token? = none) ∧
      ∀ edits : List Edit, (∀ e ∈ edits, e.subject? = some c ∧ e.plantsUse = false) →
        ∀ m old, w.node? m = some old → ∃ new, (copied.run edits).node? m = some new ∧
          new.unused = old.unused ∧ new.uses.entries.filter (·.2.user ≠ c) = old.uses.entries := by
  have co := reach.consistent
  let c : NodeId := ⟨w.nextNode⟩
  have unheld : w.drafts[c]? = none := by
    rw [Option.eq_none_iff_forall_ne_some]
    exact fun d held => Nat.lt_irrefl _ (co.draft held).2.2.1
  have absent : w.graph.node? c = none :=
    Graph.not_contains_iff.1 fun stored => Nat.lt_irrefl _ (co.stored stored)
  have fresh : w.node? c = none := (node?_of_unheld unheld).trans absent
  have free := node.unlinked_clone c
  have same : (node.clone c).key = node.key := node.key_clone c
  obtain ⟨op, results, predicate, inputs⟩ := Node.key_eq_iff.1 same
  refine ⟨c, w.takeNode.2.keep (node.clone c), node.clone c, apply_clone found,
    ⟨if_pos (Nat.le_refl _), fresh⟩, ?_, rfl, rfl, op, results, inputs, predicate,
    Node.isEqual_of_key same, rfl, rfl, fun s o => free.token, fun edits own m old found => ?_⟩
  · rw [drafts_keep]
    exact if_pos rfl
  · have copied := (co.issue (d := node.clone c) rfl free).consistent
    have ne : m ≠ c := by
      rintro rfl
      rw [fresh] at found
      cases found
    have still : (w.takeNode.2.keep (node.clone c)).node? m = some old := by
      have other : (node.clone c).id ≠ m := Ne.symm ne
      exact (node?_keep _ _ m).trans ((if_neg other).trans found)
    have alone : w.graph.ReadsItselfOnly c := fun x s v read hc =>
      absurd hc ((co.not_named absent).1 x s v read)
    exact copied.exists_spared (copied.sparesOthers_run alone own) absent ne still

/-- The sum reads itself and is copied. The copy is attached, reads the sum and then itself, and is
erased: the sum still reads what it read. -/
theorem clone_isolation_diamond :
    let w := empty.run (diamond ++ [.setInput ⟨3⟩ 0 (.result ⟨3⟩ 0)])
    let copied := (w.apply (.clone ⟨3⟩)).1
    let edits := [.attach ⟨4⟩ ⟨0⟩ none, .setPredicate ⟨4⟩ (.result ⟨3⟩ 0),
      .setInput ⟨4⟩ 1 (.result ⟨4⟩ 0), .clearUses ⟨4⟩, .eraseNode ⟨0⟩ ⟨4⟩]
    w.Reachable ∧ (w.apply (.clone ⟨3⟩)).2 = .ok (.node ⟨4⟩) ∧
      ∃ new, (copied.run edits).node? ⟨3⟩ = some new ∧
        new.inputValues = [.result ⟨3⟩ 0, .result ⟨1⟩ 0] ∧
        new.uses.entries.filter (·.2.user ≠ ⟨4⟩) = [(⟨0, 0⟩, ⟨⟨3⟩, .input 0, .result ⟨3⟩ 0⟩)] := by
  intro w copied edits
  have reach : w.Reachable := ⟨_, by decide, rfl⟩
  have found : w.node? ⟨3⟩ = some _ := rfl
  obtain ⟨c, copied', copy, done, -, -, -, -, -, -, -, -, -, -, -, -, spared⟩ :=
    Reachable.clone_isolation reach found
  have answered : w.apply (.clone ⟨3⟩) = (copied, .ok (.node ⟨4⟩)) := rfl
  obtain ⟨rfl, answer⟩ := Prod.mk.inj (answered.symm.trans done)
  obtain rfl := Reply.node.inj (Except.ok.inj answer)
  obtain ⟨new, kept, unused, entries⟩ := spared edits (by decide) ⟨3⟩ _ found
  refine ⟨reach, rfl, new, kept, ?_, entries⟩
  calc new.inputValues = new.unused.inputValues := rfl
    _ = [.result ⟨3⟩ 0, .result ⟨1⟩ 0] := by rw [unused]; rfl

end Workspace

end Dataflow
