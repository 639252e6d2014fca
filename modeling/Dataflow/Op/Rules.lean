import Dataflow.Op.Basic
import Dataflow.TensorType

/-!
# Typing rules of operations

Every operation relates the types a node reads to the types it produces. `Op.breaches` lists the
ways in which given types break the rule of an operation. A type that is missing, of an unconnected
input or an untyped result, breaks no rule.
-/

namespace Dataflow

/-- The types a node reads and produces, as far as they are known. -/
structure Typing where
  inputs : List (Option TensorType)
  results : List (Option TensorType)

/-- The type of input `i`. -/
def Typing.input? (t : Typing) (i : Nat) : Option TensorType := t.inputs[i]?.join

/-- The type of result `i`. -/
def Typing.result? (t : Typing) (i : Nat) : Option TensorType := t.results[i]?.join

/-- A way in which types break the rule of an operation. -/
inductive Breach where
  | inputType (input : Nat) (found result : TensorType)
  | operandTypes (lhs rhs : TensorType)
  | resultNotBoolean (result : TensorType)
  | resultShape
  | operandRank
  | innerDims (lhs rhs : Nat)
  | resultDims (result : TensorType)
  | operandElems
  | conditionNotBoolean (condition : TensorType)
  | conditionShape
  | incompatible (input first : TensorType)
  | resultElem
  | valuesElem
  | indicesElem (indices : TensorType)
  | savedType (input output : TensorType)
deriving DecidableEq, Repr

/-- What is said about a broken rule. -/
def Breach.message : Breach → String
  | inputType i found result =>
    "input " ++ Nat.repr i ++ " has type " ++ found.text ++ ", result has type " ++ result.text
  | operandTypes lhs rhs => "operand types differ: " ++ lhs.text ++ " vs " ++ rhs.text
  | resultNotBoolean result => "result must be boolean, found " ++ result.text
  | resultShape => "result shape differs from operand shape"
  | operandRank => "operands must be rank 2"
  | innerDims lhs rhs => "inner dimensions differ: " ++ Nat.repr lhs ++ " vs " ++ Nat.repr rhs
  | resultDims result => "result type " ++ result.text ++ " does not match operands"
  | operandElems => "operand element kinds differ"
  | conditionNotBoolean condition => "condition must be boolean, found " ++ condition.text
  | conditionShape => "condition shape differs from result shape"
  | incompatible input first => "input " ++ input.text ++ " is incompatible with " ++ first.text
  | resultElem => "result element kind differs from inputs"
  | valuesElem => "values element kind differs from input"
  | indicesElem indices => "indices must be an index type, found " ++ indices.text
  | savedType input output => "cannot save " ++ input.text ++ " into " ++ output.text

namespace Op

/-- `[b]` where a rule is broken, and nothing where it holds. -/
def breachIf (broken : Bool) (b : Breach) : List Breach := if broken then [b] else []

/-- The inputs among `indices` whose type is not that of the first result. -/
def inputTypeBreaches (t : Typing) (indices : List Nat) : List Breach :=
  match t.result? 0 with
  | none => []
  | some result => indices.flatMap fun i =>
    match t.input? i with
    | none => []
    | some input => breachIf (input ≠ result) (.inputType i input result)

/-- Elementwise comparison: operands of one type, a boolean result of their shape. -/
def cmpLteBreaches (t : Typing) : List Breach :=
  (match t.input? 0, t.input? 1 with
    | some lhs, some rhs => breachIf (lhs ≠ rhs) (.operandTypes lhs rhs)
    | _, _ => []) ++
  match t.result? 0 with
  | none => []
  | some result =>
    breachIf (result.elem ≠ .bool) (.resultNotBoolean result) ++
    match t.input? 0 with
    | none => []
    | some lhs => breachIf (!lhs.sameShape result) .resultShape

/-- Matrix product: the first of the conditions on the dimensions that fails is given. -/
def matMulDimsBreaches (lhs rhs : TensorType) (result? : Option TensorType) : List Breach :=
  match lhs.dims, rhs.dims with
  | [m, k], [k', n] =>
    if k ≠ k' then [.innerDims k k']
    else match result? with
      | none => []
      | some result => breachIf (result.dims ≠ [m, n]) (.resultDims result)
  | _, _ => [.operandRank]

/-- Matrix product of two operands of one element kind. -/
def matMulBreaches (t : Typing) : List Breach :=
  match t.input? 0, t.input? 1 with
  | some lhs, some rhs =>
    matMulDimsBreaches lhs rhs (t.result? 0) ++ breachIf (lhs.elem ≠ rhs.elem) .operandElems
  | _, _ => []

/-- Elementwise choice: a boolean condition of the result's shape, branches of its type. -/
def selectBreaches (t : Typing) : List Breach :=
  (match t.input? 0 with
    | none => []
    | some condition => breachIf (condition.elem ≠ .bool) (.conditionNotBoolean condition)) ++
  inputTypeBreaches t [1, 2] ++
  match t.result? 0, t.input? 0 with
  | some result, some condition => breachIf (!condition.sameShape result) .conditionShape
  | _, _ => []

/-- Concatenation: every known input agrees with the first known one in element kind and rank, and
the result has their element kind. -/
def concatBreaches (t : Typing) : List Breach :=
  match t.inputs.reduceOption with
  | [] => []
  | first :: others =>
    (others.flatMap fun other =>
      breachIf (other.elem ≠ first.elem || other.rank ≠ first.rank) (.incompatible other first)) ++
    match t.result? 0 with
    | none => []
    | some result => breachIf (result.elem ≠ first.elem) .resultElem

/-- Largest values: they keep the element kind, and their positions are of an index kind. -/
def topKBreaches (t : Typing) : List Breach :=
  (match t.input? 0, t.result? 0 with
    | some input, some values => breachIf (input.elem ≠ values.elem) .valuesElem
    | _, _ => []) ++
  match t.result? 1 with
  | none => []
  | some indices => breachIf (!indices.elem.isIndex) (.indicesElem indices)

/-- Saving into storage of the same type. -/
def saveBreaches (t : Typing) : List Breach :=
  match t.input? 0, t.input? 1 with
  | some input, some output => breachIf (input ≠ output) (.savedType input output)
  | _, _ => []

/-- The ways in which `t` breaks the rule of an operation. -/
def breaches (op : Op) (t : Typing) : List Breach :=
  match op with
  | placeholder | constant | splat => []
  | add | sub | mul | div | max | min | relu | sigmoid | tanh =>
    inputTypeBreaches t (List.range t.inputs.length)
  | cmpLte => cmpLteBreaches t
  | matMul => matMulBreaches t
  | select => selectBreaches t
  | concat => concatBreaches t
  | topK => topKBreaches t
  | save => saveBreaches t

end Op

end Dataflow
