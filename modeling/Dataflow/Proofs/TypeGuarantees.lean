import Dataflow.Proofs.History
import Dataflow.Proofs.WellFormed

/-!
# What verified types guarantee

A missing type is a problem of the node whose result lacks it, and of no node that reads the result. So
the verdict on one function says less about what its nodes read than about what they produce: a
predicate that passes is boolean, or it reads an untyped result in another function, whose own
diagnosis says so (`Reachable.predicates_boolean`). When all functions are in order every value has a
type, and the data that an operation takes share an element kind. Its first result has this kind too
(`Reachable.element_kinds_kept`), but for matrix products: their rule compares the operands with each
other, and only the dimensions with those of the result.
-/

namespace Dataflow

namespace Graph

/-! ## Reports -/

theorem mem_untypedResults_iff {n : Node} {m : NodeId} {i : Nat} :
    .untypedResult m i ∈ untypedResults n ↔ m = n.id ∧ n.results[i]? = some none := by
  rw [untypedResults, List.mem_flatten]
  constructor
  · rintro ⟨problems, found, hp⟩
    obtain ⟨j, hj, rfl⟩ := List.mem_mapIdx.1 found
    split_ifs at hp with untyped
    · cases List.mem_singleton.1 hp
      exact ⟨rfl, by rw [List.getElem?_eq_getElem hj, Option.isNone_iff_eq_none.1 untyped]⟩
    · cases hp
  · rintro ⟨rfl, untyped⟩
    obtain ⟨hi, untyped⟩ := List.getElem?_eq_some_iff.1 untyped
    refine ⟨_, List.mem_mapIdx.2 ⟨i, hi, rfl⟩, ?_⟩
    rw [untyped]
    exact List.mem_singleton_self _

/-- The diagnosis of the function `f` lists the problem. -/
def Reports (g : Graph) (f : FuncId) (p : Problem) : Prop :=
  ∃ problems, g.problemsIn f = .ok problems ∧ p ∈ problems

theorem Reports.funcSound_eq_false {g : Graph} {f : FuncId} {p : Problem} (reported : g.Reports f p) :
    g.funcSound f = false := by
  obtain ⟨problems, diagnosed, hp⟩ := reported
  rw [← Bool.not_eq_true, funcSound_eq_true_iff, diagnosed, Except.ok.injEq]
  exact List.ne_nil_of_mem hp

/-- What is wrong with a stored node is reported in its function. -/
theorem Owned.exists_reports {g : Graph} (own : g.Owned) {n : NodeId} {node : Node}
    (stored : g.node? n = some node) {p : Problem} (hp : p ∈ g.nodeProblems node) :
    ∃ f, node.parent? = some f ∧ g.Reports f p := by
  obtain ⟨f, parent, func, hf, rfl, hn⟩ := own.owner stored
  have found := own.funcOrRefusal_eq_ok_iff.2 ⟨hf, rfl⟩
  have member : p ∈ g.memberProblems func.id n := by
    rw [memberProblems, stored]
    exact List.mem_append_right _ hp
  refine ⟨func.id, parent, _, by rw [problemsIn, found]; rfl, ?_⟩
  exact List.mem_append_left _ (List.mem_flatMap.2 ⟨n, hn, member⟩)

/-! ## Predicates -/

/-- The value is a result without a type, of a node in another function than `f`, whose diagnosis
reports that the type is missing. -/
def UntypedElsewhere (g : Graph) (f : FuncId) (v : Value) : Prop :=
  ∃ p i producer owner, v = .result p i ∧ g.node? p = some producer ∧
    producer.results[i]? = some none ∧ producer.parent? = some owner ∧ owner ≠ f ∧
    g.Reports owner (.untypedResult p i)

/-- A function in order has no untyped results, as they would be reported in it. -/
theorem Owned.untypedElsewhere {g : Graph} (own : g.Owned) {f : FuncId} (sound : g.funcSound f = true)
    {p : NodeId} {i : Nat} {producer : Node} (stored : g.node? p = some producer)
    (untyped : producer.results[i]? = some none) : g.UntypedElsewhere f (.result p i) := by
  obtain rfl := own.node_id stored
  have problem : .untypedResult producer.id i ∈ g.nodeProblems producer := by
    simp only [nodeProblems, List.mem_append, mem_untypedResults_iff, untyped, and_self, true_or]
  obtain ⟨owner, parent, reported⟩ := own.exists_reports stored problem
  refine ⟨_, i, producer, owner, rfl, stored, untyped, parent, ?_, reported⟩
  rintro rfl
  rw [reported.funcSound_eq_false] at sound
  cases sound

/-- In a function in order, predicates read boolean results, or untyped ones elsewhere. -/
theorem Coherent.predicate_of_funcSound {g : Graph} (co : g.Coherent) {f : FuncId}
    (sound : g.funcSound f = true) {n : NodeId} {node : Node} (listed : g.Lists f n)
    (stored : g.node? n = some node) (guarded : node.hasPredicate) :
    (∃ t, g.HasType node.predicate.value t ∧ t.elem = .bool) ∨
      g.UntypedElsewhere f node.predicate.value := by
  obtain ⟨func, hf, rfl, hn⟩ := listed
  have none_found := ((co.funcSound_iff hf).1 sound).1 n hn node stored
  simp only [nodeProblems, List.append_eq_nil_iff, predicateProblems_eq_nil_iff] at none_found
  obtain ⟨⟨⟨-, predicate⟩, -⟩, -⟩ := none_found
  rcases predicate with null | ⟨p, i, producer, t?, read, found, result, bool⟩
  · rw [Node.hasPredicate, null] at guarded
    cases guarded
  · rw [read]
    cases t? with
    | none => exact .inr (co.owned.untypedElsewhere sound found result)
    | some t => exact .inl ⟨t, ⟨p, i, producer, rfl, found, result⟩, bool t rfl⟩

end Graph

namespace Workspace

/-- Every node of a function in order that has a predicate has one that reads a boolean result, or a
result without a type in another function, whose diagnosis reports it. -/
theorem Reachable.predicates_boolean {w : Workspace} (reach : w.Reachable) {f : FuncId}
    (sound : w.graph.funcSound f = true) {n : NodeId} (listed : w.graph.Lists f n) :
    ∃ node, w.graph.node? n = some node ∧ (node.hasPredicate →
      (∃ t, w.graph.HasType node.predicate.value t ∧ t.elem = .bool) ∨
        w.graph.UntypedElsewhere f node.predicate.value) := by
  have co := reach.consistent.coherent
  obtain ⟨node, stored, -⟩ := co.owned.listed listed
  exact ⟨node, stored, co.predicate_of_funcSound sound listed stored⟩

/-- A history that guards two nodes of one function: the first by a boolean result, the second by a
result of another function that has no type. -/
def remoteGuard : List Edit :=
  let t : TensorType := ⟨.float, [2]⟩
  [.addFunc "main", .addFunc "other",
    .make { op := .placeholder, name := "p", results := [none] }, .attach ⟨0⟩ ⟨1⟩ none,
    .make { op := .placeholder, name := "c", results := [some ⟨.bool, [2]⟩] }, .attach ⟨1⟩ ⟨0⟩ none,
    .make { op := .placeholder, name := "x", results := [some t], predicate := .result ⟨1⟩ 0 },
    .attach ⟨2⟩ ⟨0⟩ none,
    .make { op := .relu, name := "y", inputs := [.result ⟨2⟩ 0], results := [some t],
            predicate := .result ⟨0⟩ 0 },
    .attach ⟨3⟩ ⟨0⟩ none]

theorem reachable_remoteGuard : (empty.run remoteGuard).Reachable := ⟨remoteGuard, by decide, rfl⟩

theorem predicates_boolean_remoteGuard :
    (empty.run remoteGuard).Reachable ∧ (empty.run remoteGuard).graph.funcSound ⟨0⟩ = true ∧
    (empty.run remoteGuard).graph.Lists ⟨0⟩ ⟨2⟩ ∧
    ∃ node, (empty.run remoteGuard).graph.node? ⟨2⟩ = some node ∧ node.hasPredicate ∧
      ((∃ t, (empty.run remoteGuard).graph.HasType node.predicate.value t ∧ t.elem = .bool) ∨
        (empty.run remoteGuard).graph.UntypedElsewhere ⟨0⟩ node.predicate.value) := by
  have sound : (empty.run remoteGuard).graph.funcSound ⟨0⟩ = true := by decide +kernel
  have listed : (empty.run remoteGuard).graph.Lists ⟨0⟩ ⟨2⟩ := by
    unfold Graph.Lists
    decide +kernel
  have guarded : ((empty.run remoteGuard).graph.node? ⟨2⟩).any Node.hasPredicate := by decide +kernel
  obtain ⟨node, stored, boolean⟩ := Reachable.predicates_boolean reachable_remoteGuard sound listed
  rw [stored] at guarded
  exact ⟨reachable_remoteGuard, sound, listed, node, stored, guarded, boolean guarded⟩

/-- The other function has to be in order as well, or a predicate may read a result without a type. -/
theorem predicate_untyped_remoteGuard :
    (empty.run remoteGuard).Reachable ∧ (empty.run remoteGuard).graph.funcSound ⟨0⟩ = true ∧
    ¬ ∀ n, (empty.run remoteGuard).graph.Lists ⟨0⟩ n →
      ∃ node, (empty.run remoteGuard).graph.node? n = some node ∧ (node.hasPredicate →
        ∃ t, (empty.run remoteGuard).graph.HasType node.predicate.value t ∧ t.elem = .bool) := by
  refine ⟨reachable_remoteGuard, by decide +kernel, fun boolean => ?_⟩
  have listed : (empty.run remoteGuard).graph.Lists ⟨0⟩ ⟨3⟩ := by
    unfold Graph.Lists
    decide +kernel
  have untyped : ((empty.run remoteGuard).graph.node? ⟨3⟩).any fun node =>
      node.hasPredicate && ((empty.run remoteGuard).graph.readType? node.predicate.value).isNone := by
    decide +kernel
  obtain ⟨node, stored, typed⟩ := boolean ⟨3⟩ listed
  rw [stored, Option.any_some, Bool.and_eq_true] at untyped
  obtain ⟨t, read, -⟩ := typed untyped.1
  rw [Graph.readType?_eq_some_iff.2 read] at untyped
  cases untyped.2

end Workspace

/-! ## Element kinds -/

namespace Op

/-- Whether the operation computes its first result from data of one element kind. Sources have no
inputs, a comparison turns data into truth values, and saving has no result. -/
def computes : Op → Bool
  | placeholder | constant | splat | cmpLte | save => false
  | _ => true

/-- The data among the inputs: all but the condition of a choice. -/
def dataOf {α : Type} (op : Op) (inputs : List α) : List α :=
  match op with
  | select => inputs.tail
  | _ => inputs

theorem map_dataOf {α β : Type} (op : Op) (f : α → β) (inputs : List α) :
    (op.dataOf inputs).map f = op.dataOf (inputs.map f) := by
  cases op <;> first | rfl | exact List.map_tail

/-- Types that fit give all data one element kind, which the first result has as well, unless it is a
matrix product. -/
theorem Fits.exists_elem {op : Op} {inputs results : List TensorType} (fits : op.Fits inputs results)
    (computes : op.computes) :
    ∃ e result, results[0]? = some result ∧ (∀ t ∈ op.dataOf inputs, t.elem = e) ∧
      (op ≠ .matMul → result.elem = e) := by
  cases op with
  | placeholder | constant | splat | cmpLte | save => cases computes
  | add | sub | mul | div | max | min | relu | sigmoid | tanh =>
    obtain ⟨result, rfl, same⟩ := fits
    exact ⟨result.elem, result, rfl, fun t ht => same t ht ▸ rfl, fun _ => rfl⟩
  | matMul =>
    obtain ⟨e, m, k, n, result, rfl, rfl, -⟩ := fits
    exact ⟨e, result, rfl, by simp [dataOf], fun ne => absurd rfl ne⟩
  | select =>
    obtain ⟨condition, result, rfl, rfl, -⟩ := fits
    exact ⟨result.elem, result, rfl, by simp [dataOf], fun _ => rfl⟩
  | concat =>
    obtain ⟨result, rfl, elem, -⟩ := fits
    exact ⟨result.elem, result, rfl, elem, fun _ => rfl⟩
  | topK =>
    obtain ⟨input, values, indices, rfl, rfl, elem, -⟩ := fits
    exact ⟨input.elem, values, rfl, by simp [dataOf], fun _ => elem⟩

end Op

namespace Graph

/-- The same for a well-formed node and the values that it reads. -/
theorem WellFormedNode.exists_elem {g : Graph} {n : Node} (formed : g.WellFormedNode n)
    (computes : n.op.computes) :
    ∃ e result, n.results[0]? = some (some result) ∧
      (∀ v ∈ n.op.dataOf n.inputValues, ∃ t, g.HasType v t ∧ t.elem = e) ∧
      (n.op ≠ .matMul → result.elem = e) := by
  obtain ⟨inputs, results, reads, produces, fits⟩ := formed.fits
  obtain ⟨e, result, first, data, kept⟩ := fits.exists_elem computes
  refine ⟨e, result, by rw [produces, List.getElem?_map, first]; rfl, fun v hv => ?_, kept⟩
  have read : g.readType? v ∈ (n.op.dataOf inputs).map some := by
    rw [Op.map_dataOf, ← reads, ← Op.map_dataOf]
    exact List.mem_map_of_mem hv
  obtain ⟨t, ht, read⟩ := List.mem_map.1 read
  exact ⟨t, readType?_eq_some_iff.1 read.symm, data t ht⟩

end Graph

namespace Workspace

/-- When all functions are in order, the data that a node computes from have one element kind. The
first result has it too, unless the node is a matrix product. -/
theorem Reachable.element_kinds_kept {w : Workspace} (reach : w.Reachable)
    (sound : ∀ func ∈ w.graph.funcs, w.graph.funcSound func.id = true) {n : NodeId} {node : Node}
    (stored : w.graph.node? n = some node) (computes : node.op.computes) :
    ∃ e result, node.results[0]? = some (some result) ∧
      (∀ v ∈ node.op.dataOf node.inputValues, ∃ t, w.graph.HasType v t ∧ t.elem = e) ∧
      (node.op ≠ .matMul → result.elem = e) :=
  ((reach.consistent.coherent.funcSound_iff_wellFormed.1 sound).node stored).exists_elem computes

/-- A history that multiplies matrices of floating-point numbers into one of integers, and concatenates
one of the factors with itself. -/
def castingProduct : List Edit :=
  [.addFunc "main",
    .make { op := .placeholder, name := "a", results := [some ⟨.float, [2, 3]⟩] },
    .attach ⟨0⟩ ⟨0⟩ none,
    .make { op := .placeholder, name := "b", results := [some ⟨.float, [3, 4]⟩] },
    .attach ⟨1⟩ ⟨0⟩ none,
    .make { op := .matMul, name := "product", inputs := [.result ⟨0⟩ 0, .result ⟨1⟩ 0],
            results := [some ⟨.int32, [2, 4]⟩] },
    .attach ⟨2⟩ ⟨0⟩ none,
    .make { op := .concat, name := "twice", inputs := [.result ⟨0⟩ 0, .result ⟨0⟩ 0],
            results := [some ⟨.float, [4, 3]⟩] },
    .attach ⟨3⟩ ⟨0⟩ none]

theorem reachable_castingProduct : (empty.run castingProduct).Reachable :=
  ⟨castingProduct, by decide, rfl⟩

theorem funcSound_castingProduct : ∀ func ∈ (empty.run castingProduct).graph.funcs,
    (empty.run castingProduct).graph.funcSound func.id = true := by decide +kernel

theorem element_kinds_kept_castingProduct :
    (empty.run castingProduct).Reachable ∧
    (∀ func ∈ (empty.run castingProduct).graph.funcs,
      (empty.run castingProduct).graph.funcSound func.id = true) ∧
    ∃ node, (empty.run castingProduct).graph.node? ⟨3⟩ = some node ∧ node.op.computes ∧
      ∃ e result, node.results[0]? = some (some result) ∧
        (∀ v ∈ node.op.dataOf node.inputValues,
          ∃ t, (empty.run castingProduct).graph.HasType v t ∧ t.elem = e) ∧
        (node.op ≠ .matMul → result.elem = e) := by
  have computes : ((empty.run castingProduct).graph.node? ⟨3⟩).any (·.op.computes) := by
    decide +kernel
  obtain ⟨node, stored, computes⟩ := (Option.any_eq_true ..).1 computes
  exact ⟨reachable_castingProduct, funcSound_castingProduct, node, stored, computes,
    Reachable.element_kinds_kept reachable_castingProduct funcSound_castingProduct stored computes⟩

/-- The element kind is not kept by every matrix product that passes. -/
theorem element_kind_changed_castingProduct :
    (empty.run castingProduct).Reachable ∧
    (∀ func ∈ (empty.run castingProduct).graph.funcs,
      (empty.run castingProduct).graph.funcSound func.id = true) ∧
    ¬ ∀ n node, (empty.run castingProduct).graph.node? n = some node → node.op.computes →
      ∃ result, node.results[0]? = some (some result) ∧
        ∀ v ∈ node.op.dataOf node.inputValues,
          ∃ t, (empty.run castingProduct).graph.HasType v t ∧ t.elem = result.elem := by
  refine ⟨reachable_castingProduct, funcSound_castingProduct, fun kept => ?_⟩
  have product : ((empty.run castingProduct).graph.node? ⟨2⟩).map
      (fun node => (node.op, node.results, node.inputValues)) =
        some (.matMul, [some ⟨.int32, [2, 4]⟩], [.result ⟨0⟩ 0, .result ⟨1⟩ 0]) := by decide +kernel
  have factor : (empty.run castingProduct).graph.readType? (.result ⟨0⟩ 0) =
      some ⟨.float, [2, 3]⟩ := by decide +kernel
  obtain ⟨node, stored, product⟩ := Option.map_eq_some_iff.1 product
  simp only [Prod.mk.injEq] at product
  obtain ⟨op, results, inputs⟩ := product
  obtain ⟨result, first, agree⟩ := kept ⟨2⟩ node stored (by rw [op]; rfl)
  obtain ⟨t, read, elem⟩ := agree (.result ⟨0⟩ 0) (by rw [op, inputs]; exact List.mem_cons_self ..)
  rw [results] at first
  rw [Graph.readType?_eq_some_iff.2 read] at factor
  cases first
  cases factor
  cases elem

end Workspace

end Dataflow
