import Dataflow.Problem
import Dataflow.Walk.Cycle

/-!
# Diagnosis

A node is in good order when it has the results and as many inputs as its operation asks for, every
result is typed, every input reads an existing result, its predicate is boolean, the types fit the
rule of the operation, and slots and use records agree in both directions. A function is in good
order when its nodes are, and no operand cycle lies below them.

A diagnosis lists everything that is wrong. It looks at malformed graphs without failing: what
cannot be looked up is a problem of its own, and the checks that would need it are passed over.
-/

namespace Dataflow

namespace Graph

/-! ## Results and operands -/

/-- The results without a type. -/
def untypedResults (n : Node) : List Problem :=
  (n.results.mapIdx fun i t? => if t?.isNone then [Problem.untypedResult n.id i] else []).flatten

/-- Whether the number of results is that of the operation. -/
def resultCountProblems (n : Node) : List Problem :=
  if n.results.length = n.op.signature.results.length then []
  else [.resultCount n.id n.op n.results.length]

/-- Whether the operation accepts the number of inputs. -/
def arityProblems (n : Node) : List Problem :=
  if n.op.acceptsArity n.inputs.length then [] else [.arity n.id n.op n.inputs.length]

/-- The name of an input in diagnoses: with an unacceptable number of inputs, only its number. -/
def inputLabel (n : Node) (i : Nat) : String :=
  if n.op.acceptsArity n.inputs.length then (n.op.inputName? i).getD "" else "#" ++ Nat.repr i

/-- Whether an input reads an existing result. -/
def inputProblems (g : Graph) (n : Node) (i : Nat) : Value → List Problem
  | .null => [.openInput n.id i (inputLabel n i)]
  | .result target index =>
    match g.node? target with
    | none => [.danglingInput n.id i target]
    | some producer =>
      if index < producer.results.length then []
      else [.missingResult n.id i (.result target index)]

/-- Whether the predicate, if there is one, reads an existing result that is not of another than
boolean type. -/
def predicateProblems (g : Graph) (n : Node) : List Problem :=
  let v := n.predicate.value
  if v.isNull then []
  else match v.node?.bind g.node? with
    | none => [.badPredicate n.id v .missingNode]
    | some producer =>
      match producer.results[v.index]? with
      | none => [.badPredicate n.id v .missingResult]
      | some none => []
      | some (some t) => if t.elem = .bool then [] else [.badPredicate n.id v (.notBoolean t)]

/-! ## Types -/

/-- The type of a value, if it resolves to a typed result. -/
def readType? (g : Graph) (v : Value) : Option TensorType :=
  ((v.node?.bind g.node?).bind (·.results[v.index]?)).join

/-- The types that a node reads and produces. -/
def typing (g : Graph) (n : Node) : Typing := ⟨n.inputValues.map g.readType?, n.results⟩

/-- How the types of a node break the rule of its operation. -/
def ruleProblems (g : Graph) (n : Node) : List Problem :=
  (n.op.breaches (g.typing n)).map (.brokenRule n.id n.op)

/-! ## Links -/

/-- How a connected slot disagrees with its record in the list of the node that it reads. -/
def slotFlaw? (g : Graph) (n : Node) (s : Slot) (v : Value) : Option LinkFlaw := do
  let producer ← v.node?.bind g.node?
  match (n.operand? s).bind (·.token?) |>.bind producer.uses.get? with
  | none => some (.noRecord s)
  | some u =>
    if u.user ≠ n.id ∨ u.slot ≠ s then some (.foreignRecord s u.user u.slot)
    else if u.value ≠ v then some (.recordedValue s v u.value)
    else none

/-- How a record disagrees with the slot that it names. -/
def recordFlaw? (g : Graph) (token : Token) (u : Use) : Option LinkFlaw :=
  match g.node? u.user with
  | none => some .missingUser
  | some user =>
    match user.operand? u.slot with
    | none => some (.missingSlot u.slot)
    | some o =>
      if o.value ≠ u.value then some (.otherValue u.slot o.value)
      else if o.token? ≠ some token then some (.otherRecord u.slot)
      else none

/-- The slots of a node and the records of its uses that are not linked as they should be. -/
def linkProblems (g : Graph) (n : Node) : List Problem :=
  n.operands.filterMap (fun (s, v) => (g.slotFlaw? n s v).map (.brokenLink n.id v)) ++
    n.uses.entries.filterMap fun (token, u) =>
      (g.recordFlaw? token u).map (.brokenLink u.user u.value)

/-! ## Verdicts -/

/-- Everything that is wrong with a node. -/
def nodeProblems (g : Graph) (n : Node) : List Problem :=
  untypedResults n ++ resultCountProblems n ++ arityProblems n ++
    (n.inputValues.mapIdx (g.inputProblems n)).flatten ++ g.predicateProblems n ++
    g.ruleProblems n ++ g.linkProblems n

/-- Everything that is wrong with a stored node. -/
def problemsAt (g : Graph) (n : NodeId) : Except Refusal (List Problem) :=
  (g.nodeOrRefusal n).map g.nodeProblems

/-- What is wrong with a node as a member of a function. -/
def memberProblems (g : Graph) (f : FuncId) (n : NodeId) : List Problem :=
  match g.node? n with
  | none => [.misplaced n none f]
  | some node =>
    (if node.parent? = some f then [] else [.misplaced n node.parent? f]) ++ g.nodeProblems node

/-- Everything that is wrong with a function, its nodes in order and the cycles last. -/
def problemsIn (g : Graph) (f : FuncId) : Except Refusal (List Problem) :=
  (g.funcOrRefusal f).map fun func =>
    func.nodes.flatMap (g.memberProblems f) ++ (g.closingNodes func.nodes).map .cycle

/-- Whether a node is stored and nothing is wrong with it. -/
def nodeSound (g : Graph) (n : NodeId) : Bool :=
  match g.problemsAt n with
  | .ok [] => true
  | _ => false

/-- Whether a function exists and nothing is wrong with it. -/
def funcSound (g : Graph) (f : FuncId) : Bool :=
  match g.problemsIn f with
  | .ok [] => true
  | _ => false

end Graph

end Dataflow
