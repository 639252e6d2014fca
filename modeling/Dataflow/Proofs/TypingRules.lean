import Dataflow.Op.Rules
import Mathlib.Data.List.Basic
import Mathlib.Tactic.SplitIfs

/-!
# Typing rules as relations

`Op.Fits` says which types the nodes of an operation may read and produce. For a node with an accepted
number of inputs and the right number of results, all of them typed, the breaches that are found are
none exactly if the types fit (`Op.breaches_eq_nil_iff`).
-/

namespace Dataflow

namespace Op

/-- The types `inputs` and `results` are related as the operation asks. The element kind of a matrix
product is free. -/
def Fits (op : Op) (inputs results : List TensorType) : Prop :=
  match op with
  | placeholder | constant | splat => True
  | add | sub | mul | div | max | min | relu | sigmoid | tanh =>
    ∃ result, results = [result] ∧ ∀ t ∈ inputs, t = result
  | cmpLte =>
    ∃ operand result, inputs = [operand, operand] ∧ results = [result] ∧ result.elem = .bool ∧
      result.dims = operand.dims
  | matMul =>
    ∃ elem m k n result, inputs = [⟨elem, [m, k]⟩, ⟨elem, [k, n]⟩] ∧ results = [result] ∧
      result.dims = [m, n]
  | select =>
    ∃ condition result, inputs = [condition, result, result] ∧ results = [result] ∧
      condition.elem = .bool ∧ condition.dims = result.dims
  | concat =>
    ∃ result, results = [result] ∧ (∀ t ∈ inputs, t.elem = result.elem) ∧
      ∀ t ∈ inputs, ∀ u ∈ inputs, t.rank = u.rank
  | topK =>
    ∃ input values indices, inputs = [input] ∧ results = [values, indices] ∧
      values.elem = input.elem ∧ indices.elem.isIndex
  | save => ∃ t, inputs = [t, t]

/-! ## Known types -/

/-- The typing of a node that reads and produces known types only. -/
def known (inputs results : List TensorType) : Typing := ⟨inputs.map some, results.map some⟩

theorem input?_known (inputs results : List TensorType) (i : Nat) :
    (known inputs results).input? i = inputs[i]? := by
  rw [Typing.input?, known, List.getElem?_map]
  cases inputs[i]? <;> rfl

theorem result?_known (inputs results : List TensorType) (i : Nat) :
    (known inputs results).result? i = results[i]? := by
  rw [Typing.result?, known, List.getElem?_map]
  cases results[i]? <;> rfl

@[simp] theorem breachIf_eq_nil_iff {broken : Bool} {b : Breach} :
    breachIf broken b = [] ↔ broken = false := by
  cases broken <;> simp [breachIf]

theorem inputTypeBreaches_eq_nil_iff {inputs results : List TensorType} {result : TensorType}
    {indices : List Nat} :
    inputTypeBreaches (known inputs (result :: results)) indices = [] ↔
      ∀ i ∈ indices, ∀ t ∈ inputs[i]?, t = result := by
  simp only [inputTypeBreaches, result?_known, input?_known, List.getElem?_cons_zero,
    List.flatMap_eq_nil_iff]
  refine forall₂_congr fun i _ => ?_
  cases inputs[i]? <;> simp

/-! ## The rules -/

theorem elementwise_eq_nil_iff {inputs : List TensorType} {result : TensorType} :
    inputTypeBreaches (known inputs [result]) (List.range inputs.length) = [] ↔
      ∀ t ∈ inputs, t = result := by
  rw [inputTypeBreaches_eq_nil_iff]
  constructor
  · intro fits t ht
    obtain ⟨i, hi, rfl⟩ := List.getElem_of_mem ht
    exact fits i (List.mem_range.2 hi) _ (List.getElem?_eq_getElem hi)
  · exact fun fits i _ t ht => fits t (List.mem_of_getElem? ht)

theorem cmpLteBreaches_eq_nil_iff {lhs rhs result : TensorType} :
    cmpLteBreaches (known [lhs, rhs] [result]) = [] ↔ cmpLte.Fits [lhs, rhs] [result] := by
  have none_found : cmpLteBreaches (known [lhs, rhs] [result]) = [] ↔
      lhs = rhs ∧ result.elem = .bool ∧ lhs.dims = result.dims := by
    simp [cmpLteBreaches, input?_known, result?_known, TensorType.sameShape]
  rw [none_found]
  constructor
  · rintro ⟨rfl, bool, shape⟩
    exact ⟨lhs, result, rfl, rfl, bool, shape.symm⟩
  · rintro ⟨operand, result', inputs, results, bool, shape⟩
    simp_all

theorem matMulDimsBreaches_eq_nil_iff {lhs rhs result : TensorType} :
    matMulDimsBreaches lhs rhs (some result) = [] ↔
      ∃ m k n, lhs.dims = [m, k] ∧ rhs.dims = [k, n] ∧ result.dims = [m, n] := by
  unfold matMulDimsBreaches
  split
  · rename_i m k k' n hl hr
    rw [hl, hr]
    split_ifs with inner
    · refine iff_of_false id ?_
      rintro ⟨m, k, n, hl, hr, -⟩
      simp_all
    · obtain rfl := not_not.1 inner
      rw [breachIf_eq_nil_iff, decide_eq_false_iff_not, not_not]
      constructor
      · exact fun dims => ⟨m, k, n, rfl, rfl, dims⟩
      · rintro ⟨m, k, n, hl, hr, dims⟩
        simp_all
  · rename_i shapes
    simp only [reduceCtorEq, false_iff, not_exists, not_and]
    exact fun m k n hl hr _ => shapes m k k n hl hr

theorem matMulBreaches_eq_nil_iff {lhs rhs result : TensorType} :
    matMulBreaches (known [lhs, rhs] [result]) = [] ↔ matMul.Fits [lhs, rhs] [result] := by
  have none_found : matMulBreaches (known [lhs, rhs] [result]) = [] ↔
      (∃ m k n, lhs.dims = [m, k] ∧ rhs.dims = [k, n] ∧ result.dims = [m, n]) ∧
        lhs.elem = rhs.elem := by
    simp [matMulBreaches, input?_known, result?_known, matMulDimsBreaches_eq_nil_iff]
  rw [none_found]
  obtain ⟨e, dims⟩ := lhs
  obtain ⟨e', dims'⟩ := rhs
  constructor
  · rintro ⟨⟨m, k, n, rfl, rfl, dims⟩, rfl⟩
    exact ⟨e, m, k, n, result, rfl, rfl, dims⟩
  · rintro ⟨elem, m, k, n, result', inputs, results, dims⟩
    simp_all

theorem selectBreaches_eq_nil_iff {condition lhs rhs result : TensorType} :
    selectBreaches (known [condition, lhs, rhs] [result]) = [] ↔
      select.Fits [condition, lhs, rhs] [result] := by
  have none_found : selectBreaches (known [condition, lhs, rhs] [result]) = [] ↔
      condition.elem = .bool ∧ lhs = result ∧ rhs = result ∧ condition.dims = result.dims := by
    simp [selectBreaches, input?_known, result?_known, TensorType.sameShape,
      inputTypeBreaches_eq_nil_iff, and_assoc]
  rw [none_found]
  constructor
  · rintro ⟨bool, rfl, rfl, shape⟩
    exact ⟨condition, _, rfl, rfl, bool, shape⟩
  · rintro ⟨condition', result', inputs, results, bool, shape⟩
    simp_all

theorem concatBreaches_eq_nil_iff {first result : TensorType} {others : List TensorType} :
    concatBreaches (known (first :: others) [result]) = [] ↔
      concat.Fits (first :: others) [result] := by
  have inputs : (known (first :: others) [result]).inputs.reduceOption = first :: others :=
    List.filterMap_map.trans List.filterMap_some
  have none_found : concatBreaches (known (first :: others) [result]) = [] ↔
      (∀ t ∈ others, t.elem = first.elem ∧ t.rank = first.rank) ∧ result.elem = first.elem := by
    simp [concatBreaches, inputs, result?_known]
  rw [none_found]
  constructor
  · rintro ⟨agree, elem⟩
    have all : ∀ t ∈ first :: others, t.elem = first.elem ∧ t.rank = first.rank :=
      List.forall_mem_cons.2 ⟨⟨rfl, rfl⟩, agree⟩
    exact ⟨result, rfl, fun t ht => (all t ht).1.trans elem.symm,
      fun t ht u hu => (all t ht).2.trans (all u hu).2.symm⟩
  · rintro ⟨result', results, elem, rank⟩
    obtain rfl := List.singleton_inj.1 results
    have first_mem : first ∈ first :: others := List.mem_cons_self ..
    refine ⟨fun t ht => ?_, (elem first first_mem).symm⟩
    have mem := List.mem_cons_of_mem first ht
    exact ⟨(elem t mem).trans (elem first first_mem).symm, rank t mem first first_mem⟩

theorem topKBreaches_eq_nil_iff {input values indices : TensorType} :
    topKBreaches (known [input] [values, indices]) = [] ↔ topK.Fits [input] [values, indices] := by
  have none_found : topKBreaches (known [input] [values, indices]) = [] ↔
      input.elem = values.elem ∧ indices.elem.isIndex := by
    simp [topKBreaches, input?_known, result?_known]
  rw [none_found]
  constructor
  · rintro ⟨elem, index⟩
    exact ⟨input, values, indices, rfl, rfl, elem.symm, index⟩
  · rintro ⟨input', values', indices', inputs, results, elem, index⟩
    simp_all

theorem saveBreaches_eq_nil_iff {input output : TensorType} {results : List TensorType} :
    saveBreaches (known [input, output] results) = [] ↔ save.Fits [input, output] results := by
  have none_found : saveBreaches (known [input, output] results) = [] ↔ input = output := by
    simp [saveBreaches, input?_known]
  rw [none_found]
  constructor
  · rintro rfl
    exact ⟨input, rfl⟩
  · rintro ⟨t, inputs⟩
    simp_all

/-! ## All operations -/

theorem eq_of_acceptsArity {op : Op} (fixed : op.signature.variadic = false) {count : Nat}
    (accepted : op.acceptsArity count) : count = op.signature.inputs.length := by
  rw [acceptsArity, fixed] at accepted
  exact eq_of_beq accepted

/-- With an accepted number of inputs and the right number of results, all typed, no breach is found
exactly if the types fit. -/
theorem breaches_eq_nil_iff {op : Op} {inputs results : List TensorType}
    (arity : op.acceptsArity inputs.length) (count : results.length = op.signature.results.length) :
    op.breaches (known inputs results) = [] ↔ op.Fits inputs results := by
  cases op with
  | placeholder | constant | splat => exact iff_of_true rfl trivial
  | add | sub | mul | div | max | min | relu | sigmoid | tanh =>
    obtain ⟨result, rfl⟩ := List.length_eq_one_iff.1 count
    have length : (known inputs [result]).inputs.length = inputs.length := List.length_map ..
    rw [breaches, length, elementwise_eq_nil_iff]
    simp [Fits]
  | cmpLte =>
    obtain ⟨lhs, rhs, rfl⟩ := List.length_eq_two.1 (eq_of_acceptsArity rfl arity)
    obtain ⟨result, rfl⟩ := List.length_eq_one_iff.1 count
    exact cmpLteBreaches_eq_nil_iff
  | matMul =>
    obtain ⟨lhs, rhs, rfl⟩ := List.length_eq_two.1 (eq_of_acceptsArity rfl arity)
    obtain ⟨result, rfl⟩ := List.length_eq_one_iff.1 count
    exact matMulBreaches_eq_nil_iff
  | select =>
    obtain ⟨condition, lhs, rhs, rfl⟩ := List.length_eq_three.1 (eq_of_acceptsArity rfl arity)
    obtain ⟨result, rfl⟩ := List.length_eq_one_iff.1 count
    exact selectBreaches_eq_nil_iff
  | concat =>
    cases inputs with
    | nil => cases arity
    | cons first others =>
      obtain ⟨result, rfl⟩ := List.length_eq_one_iff.1 count
      exact concatBreaches_eq_nil_iff
  | topK =>
    obtain ⟨input, rfl⟩ := List.length_eq_one_iff.1 (eq_of_acceptsArity rfl arity)
    obtain ⟨values, indices, rfl⟩ := List.length_eq_two.1 count
    exact topKBreaches_eq_nil_iff
  | save =>
    obtain ⟨input, output, rfl⟩ := List.length_eq_two.1 (eq_of_acceptsArity rfl arity)
    exact saveBreaches_eq_nil_iff

end Op

end Dataflow
