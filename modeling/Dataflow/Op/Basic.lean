/-!
# Operations

What a node computes is its operation. The signature of an operation names its inputs and results
and states its traits; arity and the names of operands follow from it.
-/

namespace Dataflow

/-- The operation of a node. -/
inductive Op where
  /-- An input of the graph or a weight, filled from outside. -/
  | placeholder
  | constant
  /-- A tensor with every element set to one value. -/
  | splat
  | add
  | sub
  | mul
  | div
  | max
  | min
  /-- Elementwise comparison with a boolean result. -/
  | cmpLte
  | relu
  | sigmoid
  | tanh
  | matMul
  /-- Elementwise choice between two inputs by a boolean one. -/
  | select
  /-- The concatenation of any number of inputs. -/
  | concat
  /-- The largest values and their indices. -/
  | topK
  /-- Copies the first input into the storage of the second. -/
  | save
deriving DecidableEq, Hashable, Repr

/-- What is fixed about the nodes of an operation. -/
structure Signature where
  /-- The names of the inputs in order. -/
  inputs : List String
  /-- Whether the last input may be repeated. -/
  variadic : Bool := false
  /-- The names of the results in order. -/
  results : List String := ["Result"]
  sideEffects : Bool := false
  arithmetic : Bool := false
  /-- The inputs whose storage is written to. -/
  overwritten : List Nat := []
deriving DecidableEq, Repr

namespace Op

/-- Every operation, in the order of declaration. -/
def all : List Op :=
  [.placeholder, .constant, .splat, .add, .sub, .mul, .div, .max, .min, .cmpLte, .relu, .sigmoid,
    .tanh, .matMul, .select, .concat, .topK, .save]

/-- The name of an operation. -/
def text : Op → String
  | placeholder => "Placeholder"
  | constant => "Constant"
  | splat => "Splat"
  | add => "Add"
  | sub => "Sub"
  | mul => "Mul"
  | div => "Div"
  | max => "Max"
  | min => "Min"
  | cmpLte => "CmpLte"
  | relu => "Relu"
  | sigmoid => "Sigmoid"
  | tanh => "Tanh"
  | matMul => "MatMul"
  | select => "Select"
  | concat => "Concat"
  | topK => "TopK"
  | save => "Save"

/-- The operation with a given name. -/
def ofText? (s : String) : Option Op := all.find? (·.text == s)

/-- The signature of an operation. -/
def signature : Op → Signature
  | placeholder | constant | splat => { inputs := [], results := ["Output"] }
  | add | sub | mul | div | max | min => { inputs := ["LHS", "RHS"], arithmetic := true }
  | cmpLte | matMul => { inputs := ["LHS", "RHS"] }
  | relu | sigmoid | tanh => { inputs := ["Input"], arithmetic := true }
  | select => { inputs := ["Cond", "LHS", "RHS"] }
  | concat => { inputs := ["Inputs"], variadic := true }
  | topK => { inputs := ["Input"], results := ["Values", "Indices"] }
  | save =>
    { inputs := ["Input", "Output"], results := [], sideEffects := true, overwritten := [1] }

/-- Whether a node of this operation may have `count` inputs: the named ones, and with a repeated
last input any larger number. -/
def acceptsArity (op : Op) (count : Nat) : Bool :=
  if op.signature.variadic then op.signature.inputs.length ≤ count
  else count == op.signature.inputs.length

/-- The accepted numbers of inputs in words. -/
def arityText (op : Op) : String :=
  let count := Nat.repr op.signature.inputs.length
  if op.signature.variadic then "at least " ++ count else count

/-- The name of input `i`. The repeats of a variadic last input are numbered from zero. -/
def inputName? (op : Op) (i : Nat) : Option String :=
  let names := op.signature.inputs
  if op.signature.variadic && names.length ≤ i + 1 then
    names.getLast?.map (· ++ Nat.repr (i - (names.length - 1)))
  else names[i]?

/-- The name of result `i`. -/
def resultName? (op : Op) (i : Nat) : Option String := op.signature.results[i]?

end Op

end Dataflow
