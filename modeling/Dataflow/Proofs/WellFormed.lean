import Dataflow.Proofs.Coherence
import Dataflow.Proofs.CycleSearch
import Dataflow.Proofs.Problems
import Dataflow.Proofs.TypingRules

/-!
# Well-formed graphs

`Graph.WellFormed` says what a graph has to be for its nodes to make sense, in terms of the types that
the nodes read and produce. A diagnosis passes over checks that it takes to be reported elsewhere;
nevertheless the functions of a coherent graph are all found in order exactly if the graph is well
formed (`Coherent.funcSound_iff_wellFormed`): every node belongs to some function, so what one check
leaves out another one finds.
-/

namespace Dataflow

open Relation

namespace Graph

/-! ## Definition -/

/-- The value is a result that exists. -/
def HasResult (g : Graph) (v : Value) : Prop :=
  ∃ p i producer, v = .result p i ∧ g.node? p = some producer ∧ i < producer.results.length

/-- The value is a result that exists and has the type `t`. -/
def HasType (g : Graph) (v : Value) (t : TensorType) : Prop :=
  ∃ p i producer, v = .result p i ∧ g.node? p = some producer ∧ producer.results[i]? = some (some t)

/-- The node has the results and as many inputs as its operation asks for, reads existing results
only, and the types that it reads and produces fit its operation. -/
structure WellFormedNode (g : Graph) (n : Node) : Prop where
  result_count : n.results.length = n.op.signature.results.length
  typed : ∀ t? ∈ n.results, t?.isSome
  arity : n.op.acceptsArity n.inputs.length
  inputs : ∀ v ∈ n.inputValues, g.HasResult v
  predicate : n.predicate.value = .null ∨ ∃ t, g.HasType n.predicate.value t ∧ t.elem = .bool
  fits : ∃ inputs results, n.inputValues.map g.readType? = inputs.map some ∧
    n.results = results.map some ∧ n.op.Fits inputs results

/-- Every stored node is well formed, and no node is reached from itself along operand edges. -/
structure WellFormed (g : Graph) : Prop where
  node : ∀ {n node}, g.node? n = some node → g.WellFormedNode node
  acyclic : ∀ n, ¬ TransGen g.Reads n n

/-! ## Single checks -/

theorem flatten_mapIdx_eq_nil_iff {α β : Type} {l : List α} {f : Nat → α → List β} :
    (l.mapIdx f).flatten = [] ↔ ∀ i a, l[i]? = some a → f i a = [] := by
  simp only [List.flatten_eq_nil_iff, List.mem_mapIdx, forall_exists_index]
  constructor
  · intro h i a ha
    obtain ⟨hi, rfl⟩ := List.getElem?_eq_some_iff.1 ha
    exact h _ i hi rfl
  · rintro h _ i hi rfl
    exact h i _ (List.getElem?_eq_getElem hi)

theorem untypedResults_eq_nil_iff {n : Node} :
    untypedResults n = [] ↔ ∀ t? ∈ n.results, t?.isSome := by
  rw [untypedResults, flatten_mapIdx_eq_nil_iff]
  constructor
  · intro h t? ht
    obtain ⟨i, hi, rfl⟩ := List.getElem_of_mem ht
    have := h i _ (List.getElem?_eq_getElem hi)
    split_ifs at this with none
    exact Option.isSome_iff_ne_none.2 fun h => none (h ▸ rfl)
  · intro h i t? ht
    have := h t? (List.mem_of_getElem? ht)
    rw [if_neg]
    rw [Option.isNone_iff_eq_none]
    rintro rfl
    cases this

theorem resultCountProblems_eq_nil_iff {n : Node} :
    resultCountProblems n = [] ↔ n.results.length = n.op.signature.results.length := by
  simp [resultCountProblems]

theorem arityProblems_eq_nil_iff {n : Node} :
    arityProblems n = [] ↔ n.op.acceptsArity n.inputs.length := by
  simp [arityProblems]

theorem inputProblems_eq_nil_iff {g : Graph} {n : Node} {i : Nat} {v : Value} :
    g.inputProblems n i v = [] ↔ g.HasResult v := by
  cases v with
  | null => simp [inputProblems, HasResult]
  | result p j =>
    cases stored : g.node? p with
    | none => simp [inputProblems, HasResult, stored]
    | some producer => simp [inputProblems, HasResult, stored]

theorem inputs_eq_nil_iff {g : Graph} {n : Node} :
    (n.inputValues.mapIdx (g.inputProblems n)).flatten = [] ↔ ∀ v ∈ n.inputValues, g.HasResult v := by
  rw [flatten_mapIdx_eq_nil_iff]
  constructor
  · intro h v hv
    obtain ⟨i, hi, rfl⟩ := List.getElem_of_mem hv
    exact inputProblems_eq_nil_iff.1 (h i _ (List.getElem?_eq_getElem hi))
  · exact fun h i v hv => inputProblems_eq_nil_iff.2 (h v (List.mem_of_getElem? hv))

/-- A predicate of unknown type passes: its producer is reported instead. -/
theorem predicateProblems_eq_nil_iff {g : Graph} {n : Node} :
    g.predicateProblems n = [] ↔ n.predicate.value = .null ∨ ∃ p i producer t?,
      n.predicate.value = .result p i ∧ g.node? p = some producer ∧
        producer.results[i]? = some t? ∧ ∀ t ∈ t?, t.elem = .bool := by
  unfold predicateProblems
  cases hv : n.predicate.value with
  | null => simp [Value.isNull]
  | result p i =>
    cases stored : g.node? p with
    | none => simp [Value.isNull, Value.node?, stored]
    | some producer =>
      cases result : producer.results[i]? with
      | none => simp [Value.isNull, Value.node?, Value.index, stored, result]
      | some t? => cases t? <;> simp [Value.isNull, Value.node?, Value.index, stored, result]

/-- Nothing is ever wrong with the links of a coherent graph. -/
theorem Coherent.linkProblems_eq_nil {g : Graph} (co : g.Coherent) {n : NodeId} {node : Node}
    (stored : g.node? n = some node) : g.linkProblems node = [] := by
  obtain rfl := co.owned.node_id stored
  exact co.symmetric.linkProblems_eq_nil stored

/-! ## Nodes -/

theorem readType?_eq_some_iff {g : Graph} {v : Value} {t : TensorType} :
    g.readType? v = some t ↔ g.HasType v t := by
  cases v with
  | null => simp [readType?, HasType, Value.node?]
  | result p i =>
    cases stored : g.node? p with
    | none => simp [readType?, HasType, Value.node?, stored]
    | some producer =>
      simp [readType?, HasType, Value.node?, Value.index, stored, Option.join_eq_some_iff]

theorem exists_map_some {α : Type} {l : List (Option α)} (known : ∀ a ∈ l, a.isSome) :
    ∃ k : List α, l = k.map some := by
  induction l with
  | nil => exact ⟨[], rfl⟩
  | cons a l ih =>
    rw [List.forall_mem_cons] at known
    obtain ⟨k, rfl⟩ := ih known.2
    obtain ⟨b, rfl⟩ := Option.isSome_iff_exists.1 known.1
    exact ⟨b :: k, rfl⟩

/-- In a graph of typed nodes every existing result has a type. -/
theorem HasResult.isSome_readType? {g : Graph}
    (typed : ∀ {n node}, g.node? n = some node → ∀ t? ∈ node.results, t?.isSome) {v : Value}
    (h : g.HasResult v) : (g.readType? v).isSome := by
  obtain ⟨p, i, producer, rfl, stored, hi⟩ := h
  obtain ⟨t, ht⟩ := Option.isSome_iff_exists.1 (typed stored _ (List.getElem_mem hi))
  rw [readType?_eq_some_iff.2 ⟨p, i, producer, rfl, stored, by rw [List.getElem?_eq_getElem hi, ht]⟩,
    Option.isSome_some]

/-- Among typed nodes a predicate is in order exactly if it is null or of a boolean type. -/
theorem predicateProblems_eq_nil_iff_hasType {g : Graph}
    (typed : ∀ {n node}, g.node? n = some node → ∀ t? ∈ node.results, t?.isSome) {n : Node} :
    g.predicateProblems n = [] ↔
      n.predicate.value = .null ∨ ∃ t, g.HasType n.predicate.value t ∧ t.elem = .bool := by
  rw [predicateProblems_eq_nil_iff]
  refine or_congr_right ⟨?_, ?_⟩
  · rintro ⟨p, i, producer, t?, value, found, result, bool⟩
    obtain ⟨t, rfl⟩ := Option.isSome_iff_exists.1 (typed found t? (List.mem_of_getElem? result))
    exact ⟨t, ⟨p, i, producer, value, found, result⟩, bool t rfl⟩
  · rintro ⟨t, ⟨p, i, producer, value, found, result⟩, bool⟩
    exact ⟨p, i, producer, some t, value, found, result, fun t' ht' => Option.some.inj ht' ▸ bool⟩

/-- A node that reads and produces known types breaks no rule exactly if they fit. -/
theorem ruleProblems_eq_nil_iff {g : Graph} {n : Node} {inputs results : List TensorType}
    (reads : n.inputValues.map g.readType? = inputs.map some)
    (produces : n.results = results.map some) (arity : n.op.acceptsArity n.inputs.length)
    (count : n.results.length = n.op.signature.results.length) :
    g.ruleProblems n = [] ↔ n.op.Fits inputs results := by
  have typing : g.typing n = Op.known inputs results := by
    rw [Graph.typing, reads, produces, Op.known]
  have lengths := congrArg List.length reads
  simp only [Node.inputValues, List.length_map] at lengths
  rw [lengths] at arity
  rw [produces, List.length_map] at count
  rw [ruleProblems, List.map_eq_nil_iff, typing, Op.breaches_eq_nil_iff arity count]

/-- Among typed nodes, a node whose links are in order has no problem exactly if it is well formed. -/
theorem Coherent.nodeProblems_eq_nil_iff {g : Graph} (co : g.Coherent)
    (typed : ∀ {n node}, g.node? n = some node → ∀ t? ∈ node.results, t?.isSome) {n : NodeId}
    {node : Node} (stored : g.node? n = some node) :
    g.nodeProblems node = [] ↔ g.WellFormedNode node := by
  have links := co.linkProblems_eq_nil stored
  have predicate := predicateProblems_eq_nil_iff_hasType typed (n := node)
  simp only [nodeProblems, List.append_eq_nil_iff, untypedResults_eq_nil_iff,
    resultCountProblems_eq_nil_iff, arityProblems_eq_nil_iff, inputs_eq_nil_iff, predicate, links]
  constructor
  · rintro ⟨⟨⟨⟨⟨⟨known, count⟩, arity⟩, inputs⟩, predicate⟩, fits⟩, -⟩
    obtain ⟨results, produces⟩ := exists_map_some known
    obtain ⟨types, reads⟩ := exists_map_some (l := node.inputValues.map g.readType?) <| by
      intro t? ht
      obtain ⟨v, hv, rfl⟩ := List.mem_map.1 ht
      exact (inputs v hv).isSome_readType? typed
    have fits := (ruleProblems_eq_nil_iff reads produces arity count).1 fits
    exact ⟨count, known, arity, inputs, predicate, types, results, reads, produces, fits⟩
  · rintro ⟨count, known, arity, inputs, predicate, types, results, reads, produces, fits⟩
    exact ⟨⟨⟨⟨⟨⟨known, count⟩, arity⟩, inputs⟩, predicate⟩,
      (ruleProblems_eq_nil_iff reads produces arity count).2 fits⟩, trivial⟩

/-- No node has a problem exactly if every node is well formed. -/
theorem Coherent.forall_nodeProblems_iff {g : Graph} (co : g.Coherent) :
    (∀ n node, g.node? n = some node → g.nodeProblems node = []) ↔
      ∀ n node, g.node? n = some node → g.WellFormedNode node := by
  constructor
  · intro sound n node stored
    refine (co.nodeProblems_eq_nil_iff (fun {m other} found => ?_) stored).1 (sound n node stored)
    have := sound m other found
    simp only [nodeProblems, List.append_eq_nil_iff, untypedResults_eq_nil_iff] at this
    exact this.1.1.1.1.1.1
  · intro formed n node stored
    exact (co.nodeProblems_eq_nil_iff (fun found => (formed _ _ found).typed) stored).2
      (formed n node stored)

/-! ## Functions -/

theorem funcSound_eq_true_iff {g : Graph} {f : FuncId} :
    g.funcSound f = true ↔ g.problemsIn f = .ok [] := by
  unfold funcSound
  split
  · rename_i none
    simp [none]
  · rename_i some
    simpa using some

theorem Coherent.funcSound_iff {g : Graph} (co : g.Coherent) {func : Func} (hf : func ∈ g.funcs) :
    g.funcSound func.id = true ↔
      (∀ n ∈ func.nodes, ∀ node, g.node? n = some node → g.nodeProblems node = []) ∧
        ∀ n, g.Below func.nodes n → ¬ TransGen g.Reads n n := by
  have own := co.owned
  have found := own.funcOrRefusal_eq_ok_iff.2 ⟨hf, rfl⟩
  rw [funcSound_eq_true_iff, problemsIn, found, ← own.closingNodes_eq_nil_iff]
  simp only [Except.map, Except.ok.injEq, List.append_eq_nil_iff, List.flatMap_eq_nil_iff,
    List.map_eq_nil_iff]
  refine and_congr_left fun _ => forall₂_congr fun n hn => ?_
  obtain ⟨node, stored, parent⟩ := own.listed ⟨func, hf, rfl, hn⟩
  simp [memberProblems, stored, parent]

/-- All functions are in order exactly if the graph is well formed. -/
theorem Coherent.funcSound_iff_wellFormed {g : Graph} (co : g.Coherent) :
    (∀ func ∈ g.funcs, g.funcSound func.id = true) ↔ g.WellFormed := by
  have owner {n : NodeId} {node : Node} (stored : g.node? n = some node) :
      ∃ func ∈ g.funcs, n ∈ func.nodes := by
    obtain ⟨f, -, func, hf, -, hn⟩ := co.owned.owner stored
    exact ⟨func, hf, hn⟩
  constructor
  · intro sound
    refine ⟨fun {n node} stored => co.forall_nodeProblems_iff.1 (fun n node stored => ?_) n node stored,
      fun n cycle => ?_⟩
    · obtain ⟨func, hf, hn⟩ := owner stored
      exact ((co.funcSound_iff hf).1 (sound func hf)).1 n hn node stored
    · -- a node on a cycle is a root of the search in its own function
      obtain ⟨p, read, -⟩ := TransGen.head'_iff.1 cycle
      obtain ⟨node, stored⟩ := read.source
      obtain ⟨func, hf, hn⟩ := owner stored
      have here := contains_of_node? stored
      exact ((co.funcSound_iff hf).1 (sound func hf)).2 n ⟨n, hn, here, .refl⟩ cycle
  · intro formed func hf
    refine (co.funcSound_iff hf).2 ⟨fun n hn node stored => ?_, fun n _ => formed.acyclic n⟩
    exact co.forall_nodeProblems_iff.2 (fun _ _ found => formed.node found) n node stored

end Graph

end Dataflow
