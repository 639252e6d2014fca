import Dataflow.Proofs.AnyHistory
import Dataflow.Proofs.CycleSearch
import Dataflow.Proofs.StrictDiagnosis

/-!
# Diagnosis without fault

No access of the strict diagnosis fails on a graph whose nodes are stored under their own identities and
have no more results than they may have, and it finds what the diagnosis finds
(`Graph.Each.strict_problemsAt`, `Graph.Each.strict_problemsIn`). Nothing is asked of the shape of the
graph: the check before an access is enough for every operation, every number of inputs and results,
and for slots, records and parents that fit nothing. Every history leaves such a graph, also with uses
and parents written by hand.
-/

namespace Dataflow

namespace Strict

/-! ## Lists -/

theorem entry_eq_ok_iff {α : Type} {l : List α} {i : Nat} {a : α} :
    entry l i = .ok a ↔ l[i]? = some a := by
  unfold entry
  split <;> simp_all

theorem mapM_eq_ok {α β : Type} {l : List α} {f : α → Except Mishap β} {f' : α → β}
    (each : ∀ a ∈ l, f a = .ok (f' a)) : l.mapM f = .ok (l.map f') := by
  induction l with
  | nil => rfl
  | cons a l ih =>
    rw [List.forall_mem_cons] at each
    rw [List.mapM_cons, each.1, ih each.2]
    rfl

theorem foldlM_eq_ok {α σ : Type} {l : List α} {f : σ → α → Except Mishap σ} {f' : σ → α → σ}
    (each : ∀ s a, f s a = .ok (f' s a)) (s : σ) : l.foldlM f s = .ok (l.foldl f' s) := by
  induction l generalizing s with
  | nil => rfl
  | cons a l ih =>
    rw [List.foldlM_cons, each]
    exact ih (f' s a)

/-! ## Slabs -/

/-- The links of a slab in order lead from cell to cell, and to an end with the last one. -/
theorem follow_next {α : Type} {s : Slab α} {a b : List Nat} (ordered : s.Ordered (a ++ b)) {k : Nat}
    (fits : b.length ≤ k) : follow s k b.head? = .ok (s.follow (·.next?) k b.head?) := by
  induction b generalizing a k with
  | nil => cases k <;> rfl
  | cons i b ih =>
    obtain ⟨k, rfl⟩ := Nat.exists_eq_add_of_lt fits
    obtain ⟨c, here, holds, -, next⟩ := ordered.linked a i b rfl
    obtain ⟨x, element⟩ := Option.isSome_iff_exists.1 holds
    have cell : entry s.cells.toList i = .ok c := entry_eq_ok_iff.2 (by simpa using here)
    have rest := ih (a := a ++ [i]) (k := b.length + k) (by simpa using ordered) (Nat.le_add_right ..)
    simp [follow, Slab.follow, cell, here, element, next, rest, bind, Except.bind, pure, Except.pure]

theorem entries_eq {α : Type} {s : Slab α} (wf : s.Wf) : entries s = .ok s.entries := by
  obtain ⟨order, ordered⟩ := wf
  rw [entries, Slab.entries, ordered.head, ordered.size]
  exact follow_next (a := []) ordered (Nat.le_refl _)

/-! ## Operations and nodes -/

/-- A last input is repeated only where there is one. -/
theorem exists_last_of_variadic {op : Op} (variadic : op.signature.variadic = true) :
    ∃ last, op.signature.inputs.getLast? = some last := by
  cases op <;> simp_all [Op.signature]

/-- The repeats of the last input are numbered from its own position on. -/
theorem repeatName_eq {names : List String} {last : String} (hlast : names.getLast? = some last)
    {i : Nat} (behind : names.length ≤ i + 1) :
    repeatName names i = .ok (last ++ Nat.repr (i - (names.length - 1))) := by
  have nonempty : 1 ≤ names.length := by
    cases names with
    | nil => cases hlast
    | cons => simp
  have found : entry names (names.length - 1) = .ok last := by
    rw [entry_eq_ok_iff, ← List.getLast?_eq_getElem?, hlast]
  have after : names.length - 1 ≤ i := by omega
  simp [repeatName, minus, nonempty, found, after, bind, Except.bind, pure, Except.pure]

/-- An input is named without fault exactly if the operation has a name for it. -/
theorem inputName_eq_ok_iff {op : Op} {i : Nat} {name : String} :
    inputName op i = .ok name ↔ op.inputName? i = some name := by
  unfold inputName Op.inputName?
  dsimp only
  split_ifs with behind
  · rw [Bool.and_eq_true, decide_eq_true_eq] at behind
    obtain ⟨last, hlast⟩ := exists_last_of_variadic behind.1
    rw [repeatName_eq hlast behind.2, hlast]
    simp
  · split <;> simp_all

example : inputName .relu 1 = .error (.violated (.unnamedInput .relu 1)) := rfl

/-- The inputs of a node of acceptable arity have names. -/
theorem exists_inputName? {op : Op} {count i : Nat} (accepted : op.acceptsArity count = true)
    (within : i < count) : ∃ name, op.inputName? i = some name := by
  unfold Op.acceptsArity at accepted
  unfold Op.inputName?
  dsimp only
  cases variadic : op.signature.variadic with
  | true =>
    obtain ⟨last, hlast⟩ := exists_last_of_variadic variadic
    by_cases behind : op.signature.inputs.length ≤ i + 1
    · simp [behind, hlast]
    · simp only [behind, decide_false, Bool.and_false, Bool.false_eq_true, if_false]
      exact ⟨_, List.getElem?_eq_getElem (by omega)⟩
  | false =>
    simp only [variadic, Bool.false_eq_true, if_false, beq_iff_eq] at accepted
    simp only [Bool.false_and, Bool.false_eq_true, if_false]
    exact ⟨_, List.getElem?_eq_getElem (accepted ▸ within)⟩

/-- The type of a result is read without fault exactly if the node has the result and a place for it. -/
theorem resultType_eq_ok_iff {n : Node} {i : Nat} {t? : Option TensorType} :
    resultType n i = .ok t? ↔ n.results[i]? = some t? ∧ i < maxResults := by
  simp only [resultType, bind_eq_ok_iff, mapError_eq_ok_iff, Node.resultType]
  constructor
  · rintro ⟨u?, read, within⟩
    split at read
    · cases read
      split_ifs at within with room
      cases within
      exact ⟨‹_›, room⟩
    · cases read
  · rintro ⟨read, room⟩
    exact ⟨t?, by rw [read], by rw [if_pos room]; rfl⟩

theorem resultType_eq {n : Node} (limited : n.Limited) {i : Nat} (within : i < n.results.length) :
    resultType n i = .ok n.results[i]?.join := by
  rw [resultType_eq_ok_iff, List.getElem?_eq_getElem within]
  exact ⟨rfl, Nat.lt_of_lt_of_le within limited⟩

theorem resultTypes_eq {n : Node} (limited : n.Limited) :
    (List.range n.results.length).mapM (resultType n) = .ok n.results := by
  rw [mapM_eq_ok fun i hi => resultType_eq limited (List.mem_range.1 hi)]
  congr 1
  refine List.ext_getElem? fun i => ?_
  by_cases within : i < n.results.length <;> simp [within]

theorem hasSlot_iff {n : Node} {s : Slot} : hasSlot n s = true ↔ ∃ o, n.operand? s = some o := by
  cases s with
  | predicate => simp [hasSlot, Node.operand?]
  | input i => simp [hasSlot, Node.operand?, ← Option.isSome_iff_exists]

theorem slot_eq_ok_iff {n : Node} {s : Slot} {o : Operand} :
    slot n s = .ok o ↔ n.operand? s = some o := by
  cases s with
  | predicate => simp [slot, Node.operand?]
  | input i => exact entry_eq_ok_iff

/-! ## Results and operands -/

variable {g : Graph}

theorem inputLabel_eq {n : Node} {i : Nat} (within : i < n.inputs.length) :
    inputLabel n i = .ok (Graph.inputLabel n i) := by
  unfold inputLabel Graph.inputLabel
  split_ifs with accepted
  · obtain ⟨name, named⟩ := exists_inputName? accepted within
    rw [inputName_eq_ok_iff.2 named, named, Option.getD_some]
  · rfl

theorem input_eq (each : g.Each Node.Limited) {n : Node} {i : Nat} (within : i < n.inputs.length)
    (v : Value) : input g n i v = .ok (g.inputProblems n i v, g.readType? v) := by
  cases v with
  | null => simp [input, inputLabel_eq within, Graph.inputProblems, Graph.readType?, Value.node?, bind,
      Except.bind, pure, Except.pure]
  | result target index =>
    cases stored : g.node? target with
    | none => simp [input, stored, Graph.inputProblems, Graph.readType?, Value.node?]
    | some producer =>
      have limited := (each target producer stored).2
      have read : g.readType? (.result target index) = producer.results[index]?.join := by
        simp [Graph.readType?, Value.node?, Value.index, stored]
      rw [read]
      by_cases exists_ : index < producer.results.length
      · simp [input, stored, Graph.inputProblems, exists_, Nat.not_le.2 exists_,
          resultType_eq limited exists_, bind, Except.bind, pure, Except.pure]
      · simp [input, stored, Graph.inputProblems, exists_, Nat.not_lt.1 exists_]

theorem predicateProblems_eq (each : g.Each Node.Limited) (n : Node) :
    predicateProblems g n = .ok (g.predicateProblems n) := by
  unfold predicateProblems Graph.predicateProblems
  dsimp only
  split_ifs with null
  · rfl
  cases found : n.predicate.value.node?.bind g.node? with
  | none => rfl
  | some producer =>
    obtain ⟨p, -, stored⟩ := Option.bind_eq_some_iff.1 found
    have limited := (each p producer stored).2
    dsimp only
    split_ifs with missing
    · rw [List.getElem?_eq_none missing]
    · have exists_ := Nat.not_le.1 missing
      rw [resultType_eq limited exists_, List.getElem?_eq_getElem exists_]
      cases producer.results[n.predicate.value.index] <;> rfl

/-! ## Types -/

/-- Two operands of rank two have the dimensions that are looked at. -/
theorem matMulDimsBreaches_eq (lhs rhs : TensorType) (result? : Option TensorType) :
    matMulDimsBreaches lhs rhs result? = .ok (Op.matMulDimsBreaches lhs rhs result?) := by
  unfold matMulDimsBreaches Op.matMulDimsBreaches TensorType.rank
  by_cases ranks : lhs.dims.length = 2 ∧ rhs.dims.length = 2
  · obtain ⟨m, k, hl⟩ := List.length_eq_two.1 ranks.1
    obtain ⟨k', n, hr⟩ := List.length_eq_two.1 ranks.2
    simp only [hl, hr, entry, List.length_cons, List.length_nil, ne_eq, not_true_eq_false, or_self,
      if_false]
    dsimp only [List.getElem?_cons_succ, List.getElem?_cons_zero, bind, Except.bind]
    split_ifs
    · cases result? <;> rfl
    · rfl
  · rw [if_pos (by omega)]
    split
    · next hl hr => simp [hl, hr] at ranks
    · rfl

theorem matMulBreaches_eq (t : Typing) : matMulBreaches t = .ok (Op.matMulBreaches t) := by
  unfold matMulBreaches Op.matMulBreaches
  cases t.input? 0 with
  | none => rfl
  | some lhs =>
    cases t.input? 1 with
    | none => rfl
    | some rhs =>
      dsimp only
      rw [matMulDimsBreaches_eq]
      rfl

/-- Behind a first input there is a rest. -/
theorem concatBreaches_eq (t : Typing) : concatBreaches t = .ok (Op.concatBreaches t) := by
  unfold concatBreaches Op.concatBreaches
  cases t.inputs.reduceOption with
  | nil => rfl
  | cons first others =>
    have rest : entriesFrom (first :: others) 1 = .ok others := by simp [entriesFrom]
    dsimp only [List.head?_cons]
    rw [rest]
    cases t.result? 0 <;> rfl

theorem breaches_eq (op : Op) (t : Typing) : breaches op t = .ok (op.breaches t) := by
  cases op with
  | matMul => exact matMulBreaches_eq t
  | concat => exact concatBreaches_eq t
  | _ => rfl

/-! ## Links -/

theorem slotFlaw?_eq {n : Node} {s : Slot} {o : Operand} (held : n.operand? s = some o) (v : Value) :
    slotFlaw? g n s v = .ok (g.slotFlaw? n s v) := by
  unfold slotFlaw? Graph.slotFlaw?
  cases v.node?.bind g.node? with
  | none => rfl
  | some producer =>
    simp only [slot_eq_ok_iff.2 held, held, bind, Except.bind, Option.bind_some]
    cases o.token?.bind producer.uses.get? with
    | none => rfl
    | some u =>
      dsimp only
      split_ifs <;> rfl

/-- Only a slot that the user has is looked at. -/
theorem recordFlaw?_eq (t : Token) (u : Use) : recordFlaw? g t u = .ok (g.recordFlaw? t u) := by
  unfold recordFlaw? Graph.recordFlaw?
  cases g.node? u.user with
  | none => rfl
  | some user =>
    dsimp only
    cases held : user.operand? u.slot with
    | none =>
      have missing : ¬ hasSlot user u.slot = true := by simp [hasSlot_iff, held]
      rw [if_neg missing]
    | some o =>
      rw [if_pos (hasSlot_iff.2 ⟨o, held⟩), slot_eq_ok_iff.2 held]
      dsimp only [bind, Except.bind]
      split_ifs <;> rfl

theorem linkProblems_eq (n : Node) : linkProblems g n = .ok (g.linkProblems n) := by
  have slots : n.operands.mapM (slotProblem? g n) =
      .ok (n.operands.map fun e => (g.slotFlaw? n e.1 e.2).map (.brokenLink n.id e.2)) :=
    mapM_eq_ok fun e listed => by
      obtain ⟨-, o, held, -⟩ := Node.mem_operands.1 listed
      rw [slotProblem?, slotFlaw?_eq held]
      rfl
  have records : n.uses.entries.mapM (recordProblem? g) =
      .ok (n.uses.entries.map fun e =>
        (g.recordFlaw? e.1 e.2).map (.brokenLink e.2.user e.2.value)) :=
    mapM_eq_ok fun e _ => by
      rw [recordProblem?, recordFlaw?_eq]
      rfl
  have listed : entries n.uses.slab = .ok n.uses.entries := entries_eq n.uses.wf
  have kept {α β : Type} (f : α → Option β) (l : List α) : (l.map f).reduceOption = l.filterMap f :=
    List.filterMap_map
  simp only [linkProblems, slots, listed, records, bind, Except.bind, Graph.linkProblems, kept]
  rfl

/-! ## Verdicts -/

theorem nodeProblems_eq (each : g.Each Node.Limited) {n : Node} (limited : n.Limited) :
    nodeProblems g n = .ok (g.nodeProblems n) := by
  have inputs : n.inputValues.zipIdx.mapM (fun e => input g n e.2 e.1) =
      .ok (n.inputValues.zipIdx.map fun e => (g.inputProblems n e.2 e.1, g.readType? e.1)) :=
    mapM_eq_ok fun e listed => by
      have within : e.2 < n.inputs.length := by
        simpa [Node.inputValues] using List.snd_lt_of_mem_zipIdx listed
      exact input_eq each within e.1
  have types : (n.inputValues.zipIdx.map fun e => (g.inputProblems n e.2 e.1, g.readType? e.1)).map
      (·.2) = n.inputValues.map g.readType? := by
    conv => rhs; rw [← List.zipIdx_map_fst 0 n.inputValues]
    simp only [List.map_map]
    rfl
  have problems : (n.inputValues.zipIdx.map fun e =>
      (g.inputProblems n e.2 e.1, g.readType? e.1)).flatMap (·.1) =
      (n.inputValues.mapIdx (g.inputProblems n)).flatten := by
    rw [List.mapIdx_eq_zipIdx_map, List.flatMap_map]
    rfl
  simp only [nodeProblems, resultTypes_eq limited, inputs, types, predicateProblems_eq each,
    breaches_eq, linkProblems_eq, problems, bind, Except.bind]
  rfl

theorem memberProblems_eq (each : g.Each Node.Limited) (f : FuncId) (n : NodeId) :
    memberProblems g f n = .ok (g.memberProblems f n) := by
  unfold memberProblems Graph.memberProblems
  cases stored : g.node? n with
  | none => rfl
  | some node =>
    dsimp only
    rw [nodeProblems_eq each (each n node stored).2]
    rfl

/-- A search for cycles ends, whether there are cycles or not. -/
theorem closingNodes_eq (ids : ∀ {n node}, g.node? n = some node → node.id = n) (roots : List NodeId) :
    closingNodes g roots = .ok (g.closingNodes roots) := by
  have extend_eq (s : CycleSearch) (root : NodeId) :
      extend g s root = .ok (CycleSearch.extend g s root) := by
    rw [extend, (CycleSearch.visit_extend ids s root).1]
  rw [closingNodes, foldlM_eq_ok extend_eq]
  rfl

end Strict

namespace Graph

variable {g : Graph}

theorem Each.strict_problemsAt (each : g.Each Node.Limited) (n : NodeId) :
    Strict.problemsAt g n = .ok (g.problemsAt n) := by
  unfold Strict.problemsAt problemsAt
  cases found : g.nodeOrRefusal n with
  | error e => rfl
  | ok node =>
    have limited := (each n node (nodeOrRefusal_eq_ok_iff.1 found)).2
    dsimp only
    rw [Strict.nodeProblems_eq each limited]
    rfl

theorem Each.strict_problemsIn (each : g.Each Node.Limited) (f : FuncId) :
    Strict.problemsIn g f = .ok (g.problemsIn f) := by
  unfold Strict.problemsIn problemsIn
  cases g.funcOrRefusal f with
  | error e => rfl
  | ok func =>
    have listed : Strict.entries func.roster.order = .ok func.roster.order.entries :=
      Strict.entries_eq func.roster.wf
    have nodes : func.roster.order.entries.map (·.2) = func.nodes := rfl
    have members := Strict.mapM_eq_ok fun n (_ : n ∈ func.nodes) => Strict.memberProblems_eq each f n
    have closing := Strict.closingNodes_eq (fun stored => (each _ _ stored).1) func.nodes
    simp only [listed, nodes, members, closing, bind, Except.bind, Except.map, List.flatMap_def]
    rfl

/-- The diagnosis of a node is refused exactly if the node is unknown. -/
theorem problemsAt_eq_error_iff {n : NodeId} {e : Refusal} :
    g.problemsAt n = .error e ↔ ¬ g.contains n ∧ e = .unknownNode n :=
  map_eq_error_iff.trans nodeOrRefusal_eq_error_iff

/-- The diagnosis of a function is refused exactly if the function is unknown. -/
theorem problemsIn_eq_error_iff {f : FuncId} {e : Refusal} :
    g.problemsIn f = .error e ↔ ¬ g.HasFunc f ∧ e = .unknownFunc f :=
  map_eq_error_iff.trans funcOrRefusal_eq_error_iff

end Graph

namespace Workspace

/-- Diagnosis never faults. After every history, also with uses and parents written by hand, the strict
diagnosis of every node and of every function comes to its end with what the diagnosis finds, and it is
refused for unknown nodes and functions only. -/
theorem diagnosis_never_faults (edits : List Edit) :
    let g := (empty.run edits).graph
    (∀ n, Strict.problemsAt g n = .ok (g.problemsAt n)) ∧
    (∀ f, Strict.problemsIn g f = .ok (g.problemsIn f)) ∧
    (∀ n e, g.problemsAt n = .error e ↔ ¬ g.contains n ∧ e = .unknownNode n) ∧
    ∀ f e, g.problemsIn f = .error e ↔ ¬ g.HasFunc f ∧ e = .unknownFunc f :=
  have each := (limited_run edits).graph
  ⟨each.strict_problemsAt, each.strict_problemsIn, fun _ _ => Graph.problemsAt_eq_error_iff,
    fun _ _ => Graph.problemsIn_eq_error_iff⟩

/-- With two inputs, an operation of one input has no names for them, and the user that the record
names does not exist. -/
example :
    let edits : List Edit := [.addFunc "main",
      .make { op := .relu, name := "r", inputs := [.null, .null] },
      .forceUse ⟨0⟩ ⟨⟨7⟩, .input 3, .result ⟨0⟩ 0⟩, .attach ⟨0⟩ ⟨0⟩ none]
    Strict.problemsIn (empty.run edits).graph ⟨0⟩ =
      .ok (.ok [.resultCount ⟨0⟩ .relu 0, .arity ⟨0⟩ .relu 2, .openInput ⟨0⟩ 0 "#0",
        .openInput ⟨0⟩ 1 "#1", .brokenLink ⟨7⟩ (.result ⟨0⟩ 0) .missingUser]) := by
  decide +kernel

end Workspace

end Dataflow
