import Dataflow.Proofs.Acyclicity
import Dataflow.Proofs.Splice

/-!
# Attaching a node

Attaching is refused for the first of four reasons: there is no such function, the node has a parent, the
anchor is not listed, or an operand names a node that is not stored, in the order of the operands
(`Owned.checkAttach_of_free` and its neighbours). A node is not stored while it is being attached, so
none that reads itself can be. Otherwise the node is stored as it is, with its owner, and listed at the
place asked for; each operand adds one record to the list of the node that it reads, in the order of the
operands, and nothing else changes (`Coherent.attached`).
-/

namespace Dataflow

theorem UseList.toList_foldl_add (us : List Use) (l : UseList) :
    (us.foldl .add l).toList = l.toList ++ us := by
  induction us generalizing l with
  | nil => simp
  | cons u us ih => rw [List.foldl_cons, ih, toList_eq, entries_add]; simp [toList_eq]

/-- The records of the uses that a node makes of the results of another, in the order of its operands. -/
def Node.usesMadeOf (n : Node) (p : NodeId) : List Use :=
  n.operands.filterMap fun (s, v) => if v.node? = some p then some ⟨n.id, s, v⟩ else none

/-- A new node is put right before the anchor, or at the end. -/
theorem Roster.toList_insert? {r : Roster} {n : NodeId} (fresh : n ∉ r.toList)
    {before? : Option NodeId} (anchor : ∀ b ∈ before?, b ∈ r.toList) :
    ((r.insert? n before?).getD r).toList = spliced r.toList [n] before? := by
  obtain ⟨a, c, at_, rfl, splice⟩ := exists_spliced_eq anchor
  obtain ⟨r', inserted, order⟩ := insert?_head? at_ (at_ ▸ fresh)
  rw [inserted, Option.getD_some, order, splice]
  simp

/-- A loop of checks fails with the first failure. -/
theorem forM_eq_error_of_first {ε α : Type} {f : α → Except ε Unit} {front back : List α} {a : α} {e : ε}
    (passed : ∀ b ∈ front, f b = .ok ()) (failed : f a = .error e) :
    (front ++ a :: back).forM f = .error e := by
  induction front with
  | nil =>
    change (f a >>= fun _ => back.forM f) = .error e
    rw [failed]
    rfl
  | cons b front ih =>
    rw [List.forall_mem_cons] at passed
    change (f b >>= fun _ => (front ++ a :: back).forM f) = .error e
    rw [passed.1]
    exact ih passed.2

namespace Graph

variable {g h : Graph} {f : FuncId} {n : Node} {before? : Option NodeId}

/-! ## Refusals -/

theorem checkAttach_of_missing (missing : ¬ g.HasFunc f) :
    g.checkAttach f n before? = .error (.unknownFunc f) := by
  rw [checkAttach, funcOrRefusal_eq_error_iff.2 ⟨missing, rfl⟩]
  rfl

theorem Owned.checkAttach_of_parent (own : g.Owned) (exists_ : g.HasFunc f) {p : FuncId}
    (parent : n.parent? = some p) : g.checkAttach f n before? = .error (.alreadyAttached n.id p) := by
  obtain ⟨func, -, -, found⟩ := own.exists_func exists_
  rw [Graph.checkAttach, found, parent]
  rfl

theorem Owned.checkAttach_of_unlisted (own : g.Owned) (exists_ : g.HasFunc f)
    (free : n.parent? = none) {b : NodeId} (unlisted : ¬ g.Lists f b) :
    g.checkAttach f n (some b) = .error (.notOwned b f) := by
  obtain ⟨func, hf, rfl, found⟩ := own.exists_func exists_
  have absent : func.roster.contains b = false := by
    rw [Bool.eq_false_iff, ne_eq, func.roster.contains_iff]
    exact fun listed => unlisted ⟨func, hf, rfl, listed⟩
  rw [Graph.checkAttach, found, free]
  simp [absent, bind, Except.bind, throw, throwThe, MonadExceptOf.throw]

/-- Once the place is found to be in order, attaching is a matter of the operands. -/
theorem Owned.checkAttach_of_free (own : g.Owned) (exists_ : g.HasFunc f) (free : n.parent? = none)
    (anchor : ∀ b ∈ before?, g.Lists f b) :
    g.checkAttach f n before? = n.operands.forM fun e => g.checkReadable n.id e.2 := by
  obtain ⟨func, hf, rfl, found⟩ := own.exists_func exists_
  rw [Graph.checkAttach, found, free]
  cases before? with
  | none => rfl
  | some b =>
    have listed := func.roster.contains_iff.2 ((lists_iff own.func_ids hf).1 (anchor b rfl))
    simp [listed, bind, Except.bind]

theorem checkReadable_eq_error {user : NodeId} {v : Value} (dangling : ¬ g.Readable v) :
    g.checkReadable user v = .error (.danglingOperand user v) := by
  refine if_neg fun found => dangling ?_
  have passed : g.checkReadable user v = .ok () := if_pos found
  exact checkReadable_eq_ok_iff.1 passed

/-- The first operand that cannot be read is named. -/
theorem Owned.checkAttach_of_dangling (own : g.Owned) (exists_ : g.HasFunc f)
    (free : n.parent? = none) (anchor : ∀ b ∈ before?, g.Lists f b) {front back : List (Slot × Value)}
    {s : Slot} {v : Value} (operands : n.operands = front ++ (s, v) :: back)
    (readable : ∀ e ∈ front, g.Readable e.2) (dangling : ¬ g.Readable v) :
    g.checkAttach f n before? = .error (.danglingOperand n.id v) := by
  rw [own.checkAttach_of_free exists_ free anchor, operands]
  exact forM_eq_error_of_first (fun e he => checkReadable_eq_ok_iff.2 (readable e he))
    (checkReadable_eq_error dangling)

theorem attach_of_error {r : Refusal} (failed : g.checkAttach f n before? = .error r) :
    g.attach f n before? = .error r := by
  rw [attach, failed]
  rfl

theorem Owned.attach_of_readable (own : g.Owned) (exists_ : g.HasFunc f) (free : n.parent? = none)
    (anchor : ∀ b ∈ before?, g.Lists f b) (readable : ∀ e ∈ n.operands, g.Readable e.2) :
    g.attach f n before? = .ok (g.store f n before?) := by
  have checked : g.checkAttach f n before? = .ok () :=
    (own.checkAttach_of_free exists_ free anchor).trans
      (forM_eq_ok_iff.2 fun e he => checkReadable_eq_ok_iff.2 (readable e he))
  rw [attach, checked]
  rfl

/-! ## Storing -/

/-- The node `n` has been attached to the function `f` of `g`, before `before?` or at the end. -/
structure Attached (g : Graph) (f : FuncId) (n : Node) (before? : Option NodeId) (h : Graph) : Prop where
  /-- The node is stored as it was, with its owner. -/
  stored : (h.node? n.id).map Node.view = some { n.view with parent? := some f }
  /-- The lists of the nodes that it reads are prolonged. -/
  uses : ∀ p, h.allUses p = g.allUses p ++ n.usesMadeOf p
  /-- This is all that happens to other nodes. -/
  other : ∀ m, m ≠ n.id → h.node? m =
    (g.node? m).map fun node => { node with uses := (n.usesMadeOf m).foldl .add node.uses }
  /-- The function lists the node at its place, and nothing happens to other functions. -/
  funcs : ∃ roster : Roster, (∀ func ∈ g.funcs, func.id = f →
      roster.toList = spliced func.nodes [n.id] before?) ∧
    h.funcs = g.funcs.map fun func => if func.id = f then { func with roster } else func

/-- Linking the slots of a node appends their records to the lists of the nodes that they read. -/
theorem node?_foldl_link_of_ne (g : Graph) {user m : NodeId} (ne : m ≠ user)
    (operands : List (Slot × Value)) :
    (operands.foldl (fun g e => g.link user e.1 e.2) g).node? m = (g.node? m).map fun node =>
      { node with
        uses := (operands.filterMap fun (s, v) =>
          if v.node? = some m then some ⟨user, s, v⟩ else none).foldl .add node.uses } := by
  induction operands generalizing g with
  | nil => simp
  | cons e operands ih =>
    rw [List.foldl_cons, ih, link, node?_modifyNode, if_neg ne.symm, node?_recordUse, Option.map_map]
    congr 1
    funext node
    by_cases hm : e.2.node? = some m <;> simp [hm]

section Store

variable (absent : g.node? n.id = none) (readable : ∀ e ∈ n.operands, g.Readable e.2)
include absent readable

theorem node?_store_of_ne (f : FuncId) (before? : Option NodeId) {m : NodeId} (ne : m ≠ n.id) :
    (g.store f n before?).node? m =
      (g.node? m).map fun node => { node with uses := (n.usesMadeOf m).foldl .add node.uses } := by
  rw [store_eq absent readable]
  refine (node?_foldl_link_of_ne _ ne n.operands).trans ?_
  rw [node?_withNode, if_neg ne.symm]
  rfl

/-- What a free node reads is stored, and the node is not. -/
theorem usesMadeOf_self : n.usesMadeOf n.id = [] := by
  rw [Node.usesMadeOf, List.filterMap_eq_nil_iff]
  exact fun e he => if_neg ((readable e he).node?_ne absent)

theorem Symmetric.allUses_store (sym : g.Symmetric) (free : n.Unlinked) (f : FuncId)
    (before? : Option NodeId) (p : NodeId) :
    (g.store f n before?).allUses p = g.allUses p ++ n.usesMadeOf p := by
  by_cases ne : p = n.id
  · subst ne
    rw [usesMadeOf_self absent readable, allUses_of_absent absent, List.append_nil,
      List.eq_nil_iff_forall_not_mem]
    intro u hu
    -- whoever reads the node after it is stored did so before
    obtain ⟨read, hp⟩ := (sym.store free absent readable f before?).mem_allUses.1 hu
    rw [reads?_store absent readable, reads?_withNode] at read
    split_ifs at read with self
    · obtain ⟨o, held, same⟩ := Option.map_eq_some_iff.1 read
      have operand : (u.slot, u.value) ∈ n.operands :=
        Node.mem_operands.2 ⟨Value.ne_null_of_node? hp, o, held, same⟩
      exact (readable _ operand).node?_ne absent hp
    · exact (sym.readable read).node?_ne absent hp
  · rw [allUses, node?_store_of_ne absent readable f before? ne, allUses]
    cases stored : g.node? p with
    | none =>
      have unread : n.usesMadeOf p = [] := by
        rw [Node.usesMadeOf, List.filterMap_eq_nil_iff]
        exact fun e he => if_neg ((readable e he).node?_ne stored)
      rw [unread]
      rfl
    | some node => exact UseList.toList_foldl_add _ _

end Store

/-- A node whose place and operands are in order is attached, and nothing else happens. -/
theorem Coherent.attached (co : g.Coherent) (free : n.Unlinked) (absent : g.node? n.id = none)
    (exists_ : g.HasFunc f) (anchor : ∀ b ∈ before?, g.Lists f b)
    (readable : ∀ e ∈ n.operands, g.Readable e.2) :
    g.Attached f n before? (g.store f n before?) := by
  have uses := co.symmetric.allUses_store absent readable free f before?
  obtain ⟨k, r, eq⟩ := exists_rewired_store absent readable f before?
  have owned : (g.withNode { n with parent? := some f }).node? n.id =
      some { n with parent? := some f } := by
    rw [node?_withNode, if_pos rfl]
  refine ⟨?_, uses, fun m ne => node?_store_of_ne absent readable f before? ne, ?_⟩
  · have kept : (g.store f n before?).node? n.id = k.node? n.id := by rw [eq]; rfl
    obtain ⟨node, stored, same⟩ := r.symm.exists_node owned
    obtain ⟨-, op, results, parent, -⟩ := Node.same_of_bare same
    have name : node.name = n.name := by
      change node.bare.name = n.name
      rw [same]
      rfl
    have reads (s : Slot) : (g.store f n before?).reads? n.id s =
        ((g.withNode { n with parent? := some f }).reads? n.id s).map id := by
      rw [reads?_store absent readable, reads?_withNode, if_pos rfl, reads?_withNode, if_pos rfl,
        Option.map_id_fun, id_eq]
      cases s <;> rfl
    have stored' := kept.trans stored
    obtain ⟨inputs, predicate⟩ := operands_of_reads owned stored' reads
    have unused := uses n.id
    rw [allUses_of_stored stored', allUses_of_absent absent, usesMadeOf_self absent readable,
      List.append_nil] at unused
    have none : n.uses.toList = [] := by rw [free.uses]; rfl
    rw [stored', Option.map_some, Option.some.injEq]
    simp only [Node.view, op, name, results, parent, predicate, inputs, unused, none, List.map_id,
      id_eq]
    rfl
  · obtain ⟨func, hf, rfl⟩ := List.mem_map.1 exists_
    refine ⟨(func.roster.insert? n.id before?).getD func.roster, fun func' hf' same => ?_, ?_⟩
    · obtain rfl := func_unique co.owned.func_ids hf' hf same
      refine Roster.toList_insert? (fun listed => ?_) fun b hb =>
        (lists_iff co.owned.func_ids hf).1 (anchor b hb)
      exact not_contains_iff.2 absent (co.owned.contains ((lists_iff co.owned.func_ids hf).2 listed))
    · rw [eq, modifyRoster, r.funcs]
      refine List.map_congr_left fun func' hf' => ?_
      split_ifs with same
      · obtain rfl := func_unique co.owned.func_ids hf' hf same
        rfl
      · rfl

end Graph

namespace Workspace

variable {w : Workspace}

/-- In a reachable workspace a free node is attached to a function unless one of four reasons speaks
against it, of which the first one is given. The node is free no longer in any case. -/
theorem Reachable.attaching_registers_operands (reach : w.Reachable) {x : NodeId} {d : Node}
    (held : w.drafts[x]? = some d) (f : FuncId) (before? : Option NodeId) :
    (¬ w.graph.HasFunc f →
      w.apply (.attach x f before?) = (w.drop x, .error (.refused (.unknownFunc f)))) ∧
    (w.graph.HasFunc f → ∀ p, d.parent? = some p →
      w.apply (.attach x f before?) = (w.drop x, .error (.refused (.alreadyAttached x p)))) ∧
    (w.graph.HasFunc f → d.parent? = none → ∀ b, before? = some b → ¬ w.graph.Lists f b →
      w.apply (.attach x f before?) = (w.drop x, .error (.refused (.notOwned b f)))) ∧
    (w.graph.HasFunc f → d.parent? = none → (∀ b, before? = some b → w.graph.Lists f b) →
      (∀ front s v back, d.operands = front ++ (s, v) :: back →
        (∀ e ∈ front, w.graph.Readable e.2) → ¬ w.graph.Readable v →
        w.apply (.attach x f before?) = (w.drop x, .error (.refused (.danglingOperand x v)))) ∧
      ((∀ e ∈ d.operands, w.graph.Readable e.2) → ∃ h,
        w.apply (.attach x f before?) = ({ w.drop x with graph := h }, .ok (.node x)) ∧
        d.id = x ∧ w.graph.Attached f d before? h)) := by
  have co := reach.consistent
  have own := co.coherent.owned
  obtain ⟨rfl, free, -, absent⟩ := co.draft held
  have refused {r : Refusal} (failed : w.graph.checkAttach f d before? = .error r) :
      w.apply (.attach d.id f before?) = (w.drop d.id, .error (.refused r)) := by
    simp only [apply, Workspace.attach, held, Graph.attach_of_error failed]
  refine ⟨fun missing => refused (Graph.checkAttach_of_missing missing),
    fun exists_ p parent => refused (own.checkAttach_of_parent exists_ parent),
    fun exists_ parent b anchor unlisted => ?_, fun exists_ parent anchor =>
    ⟨fun front s v back operands readable dangling =>
      refused (own.checkAttach_of_dangling exists_ parent anchor operands readable dangling),
    fun readable => ⟨_, ?_, rfl, co.coherent.attached free absent exists_ anchor readable⟩⟩⟩
  · subst anchor
    exact refused (own.checkAttach_of_unlisted exists_ parent unlisted)
  · simp only [apply, Workspace.attach, held,
      own.attach_of_readable exists_ parent anchor readable]

/-- A selection guarded by the node that it also reads twice puts three records at the end of the list
of that node. A node that reads itself is refused. -/
theorem attaching_registers_operands_diamond :
    let pick : Node.Spec := { op := .select, name := "pick", predicate := .result ⟨1⟩ 0
                              inputs := [.result ⟨1⟩ 0, .result ⟨2⟩ 0, .result ⟨1⟩ 0] }
    let loop : Node.Spec := { op := .relu, name := "loop", inputs := [.result ⟨1⟩ 0, .result ⟨5⟩ 0] }
    let w := empty.run (diamond ++ [.make pick, .make loop])
    w.Reachable ∧ (∃ h, w.apply (.attach ⟨4⟩ ⟨0⟩ (some ⟨3⟩)) =
        ({ w.drop ⟨4⟩ with graph := h }, .ok (.node ⟨4⟩)) ∧
      h.allUses ⟨1⟩ = w.graph.allUses ⟨1⟩ ++ [⟨⟨4⟩, .predicate, .result ⟨1⟩ 0⟩,
        ⟨⟨4⟩, .input 0, .result ⟨1⟩ 0⟩, ⟨⟨4⟩, .input 2, .result ⟨1⟩ 0⟩] ∧
      h.funcs.map Func.nodes = [[⟨0⟩, ⟨1⟩, ⟨2⟩, ⟨4⟩, ⟨3⟩]]) ∧
    w.apply (.attach ⟨5⟩ ⟨0⟩ none) =
      (w.drop ⟨5⟩, .error (.refused (.danglingOperand ⟨5⟩ (.result ⟨5⟩ 0)))) := by
  intro pick loop w
  have reach : w.Reachable := ⟨_, by decide, rfl⟩
  have exists_ : w.graph.HasFunc ⟨0⟩ := List.mem_singleton.2 rfl
  have readable (p : NodeId) (stored : w.graph.contains p) : w.graph.Readable (.result p 0) :=
    Graph.readable_result stored 0
  refine ⟨reach, ?_, ?_⟩
  · let d : Node := { id := ⟨4⟩, op := .select, name := "pick", predicate := .unlinked pick.predicate
                      inputs := pick.inputs.map .unlinked }
    have held : w.drafts[(⟨4⟩ : NodeId)]? = some d := rfl
    have listed : ∀ b, some (⟨3⟩ : NodeId) = some b → w.graph.Lists ⟨0⟩ b := fun b hb =>
      ⟨_, List.mem_singleton.2 rfl, rfl, Option.some.inj hb ▸ by decide⟩
    have operands : ∀ e ∈ d.operands, w.graph.Readable e.2 := by
      simp [d, pick, Node.operands, Node.slotOperands, Value.isNull, Operand.unlinked,
        readable ⟨1⟩ (by decide), readable ⟨2⟩ (by decide)]
    obtain ⟨-, -, -, outcome⟩ := Reachable.attaching_registers_operands reach held ⟨0⟩ (some ⟨3⟩)
    obtain ⟨h, done, -, attached⟩ := (outcome exists_ rfl listed).2 operands
    refine ⟨h, done, attached.uses ⟨1⟩, ?_⟩
    obtain ⟨roster, order, funcs⟩ := attached.funcs
    rw [funcs]
    exact congrArg (fun ns => [ns]) (order _ (List.mem_singleton.2 rfl) rfl)
  · let d : Node := { id := ⟨5⟩, op := .relu, name := "loop", inputs := loop.inputs.map .unlinked }
    have held : w.drafts[(⟨5⟩ : NodeId)]? = some d := rfl
    obtain ⟨-, -, -, outcome⟩ := Reachable.attaching_registers_operands reach held ⟨0⟩ none
    obtain ⟨dangling, -⟩ := outcome exists_ rfl (by simp)
    refine dangling [(.input 0, .result ⟨1⟩ 0)] (.input 1) _ [] rfl ?_ ?_
    · simpa using readable ⟨1⟩ (by decide)
    · intro read
      exact absurd (read ⟨5⟩ rfl) (by decide)

end Workspace

end Dataflow
