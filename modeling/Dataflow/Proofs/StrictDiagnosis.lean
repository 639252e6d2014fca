import Dataflow.Diagnosis

/-!
# Strict diagnosis

A diagnosis passes over what cannot be looked up. Here the same diagnosis is made of accesses that do
not forgive: a result is read only if the node has it, an input is named only if the operation has it, a
slot is looked at only if it is there, lists are entered by index, and the links of use lists and
rosters are followed from cell to cell until they end. An access that fails ends the diagnosis with a
`Mishap`, and so does a loop that does not come to its end. What keeps the accesses from failing are the
checks made before them, many of them in other places.
-/

namespace Dataflow

/-- What brings a diagnosis down. -/
inductive Mishap where
  | violated (contract : Violation)
  /-- A larger number is taken from a smaller one. -/
  | underflow
  /-- A loop goes on after more turns than it can have. -/
  | endless
deriving DecidableEq, Repr

namespace Strict

/-! ## Lists and numbers -/

/-- Entry `i` of a list, which must have it. -/
def entry {α : Type} (l : List α) (i : Nat) : Except Mishap α :=
  match l[i]? with
  | some a => .ok a
  | none => .error (.violated .outOfRange)

/-- The entries of a list from position `i` on, which must not lie behind the end. -/
def entriesFrom {α : Type} (l : List α) (i : Nat) : Except Mishap (List α) :=
  if i ≤ l.length then .ok (l.drop i) else .error (.violated .outOfRange)

/-- The difference of two numbers, of which the second must not be larger. -/
def minus (a b : Nat) : Except Mishap Nat :=
  if b ≤ a then .ok (a - b) else .error .underflow

/-! ## Slabs -/

/-- The elements met from a cell on, with their handles. The cells must be there, and the way must end
after at most `bound` of them. -/
def follow {α : Type} (s : Slab α) : Nat → Option Nat → Except Mishap (List (Handle × α))
  | _, none => .ok []
  | 0, some _ => .error .endless
  | bound + 1, some i => do
    let c ← entry s.cells.toList i
    match c.element? with
    | none => return []
    | some x => return (⟨i, c.generation⟩, x) :: (← follow s bound c.next?)

/-- The elements with their handles, front to back. -/
def entries {α : Type} (s : Slab α) : Except Mishap (List (Handle × α)) := follow s s.size s.head?

/-! ## Operations and nodes -/

/-- The name of an input that repeats the last one in `names`. -/
def repeatName (names : List String) (i : Nat) : Except Mishap String := do
  let last ← minus names.length 1
  return (← entry names last) ++ Nat.repr (← minus i last)

/-- The name of input `i`, which nodes of the operation must be able to have. -/
def inputName (op : Op) (i : Nat) : Except Mishap String :=
  let names := op.signature.inputs
  if op.signature.variadic && names.length ≤ i + 1 then repeatName names i
  else match names[i]? with
    | some name => .ok name
    | none => .error (.violated (.unnamedInput op i))

/-- The type of result `i`, which the node must have. There are `maxResults` places for types. -/
def resultType (n : Node) (i : Nat) : Except Mishap (Option TensorType) := do
  let t? ← (n.resultType i).mapError .violated
  if i < maxResults then return t? else throw (.violated .outOfRange)

/-- Whether the node has a slot. -/
def hasSlot (n : Node) : Slot → Bool
  | .predicate => true
  | .input i => i < n.inputs.length

/-- What a slot holds, which the node must have. -/
def slot (n : Node) : Slot → Except Mishap Operand
  | .predicate => .ok n.predicate
  | .input i => entry n.inputs i

/-! ## Results and operands -/

def inputLabel (n : Node) (i : Nat) : Except Mishap String :=
  if n.op.acceptsArity n.inputs.length then inputName n.op i else .ok ("#" ++ Nat.repr i)

/-- What is wrong with an input, and the type that it reads. -/
def input (g : Graph) (n : Node) (i : Nat) : Value → Except Mishap (List Problem × Option TensorType)
  | .null => do return ([.openInput n.id i (← inputLabel n i)], none)
  | .result target index =>
    match g.node? target with
    | none => .ok ([.danglingInput n.id i target], none)
    | some producer =>
      if producer.results.length ≤ index then
        .ok ([.missingResult n.id i (.result target index)], none)
      else do return ([], ← resultType producer index)

def predicateProblems (g : Graph) (n : Node) : Except Mishap (List Problem) :=
  let v := n.predicate.value
  if v.isNull then .ok []
  else match v.node?.bind g.node? with
    | none => .ok [.badPredicate n.id v .missingNode]
    | some producer =>
      if producer.results.length ≤ v.index then .ok [.badPredicate n.id v .missingResult]
      else do
        match ← resultType producer v.index with
        | none => return []
        | some t => return if t.elem = .bool then [] else [.badPredicate n.id v (.notBoolean t)]

/-! ## Types -/

def matMulDimsBreaches (lhs rhs : TensorType) (result? : Option TensorType) :
    Except Mishap (List Breach) :=
  if lhs.rank ≠ 2 ∨ rhs.rank ≠ 2 then .ok [.operandRank]
  else do
    let k ← entry lhs.dims 1
    let k' ← entry rhs.dims 0
    if k ≠ k' then return [.innerDims k k']
    else match result? with
      | none => return []
      | some result =>
        let m ← entry lhs.dims 0
        let n ← entry rhs.dims 1
        return Op.breachIf (result.dims ≠ [m, n]) (.resultDims result)

def matMulBreaches (t : Typing) : Except Mishap (List Breach) :=
  match t.input? 0, t.input? 1 with
  | some lhs, some rhs => do
    let dims ← matMulDimsBreaches lhs rhs (t.result? 0)
    return dims ++ Op.breachIf (lhs.elem ≠ rhs.elem) .operandElems
  | _, _ => .ok []

def concatBreaches (t : Typing) : Except Mishap (List Breach) :=
  let known := t.inputs.reduceOption
  match known.head? with
  | none => .ok []
  | some first => do
    let others ← entriesFrom known 1
    let incompatible := others.flatMap fun other =>
      Op.breachIf (other.elem ≠ first.elem || other.rank ≠ first.rank) (.incompatible other first)
    return incompatible ++ match t.result? 0 with
      | none => []
      | some result => Op.breachIf (result.elem ≠ first.elem) .resultElem

/-- The ways in which `t` breaks the rule of an operation. Where a rule looks at single dimensions or
goes on behind the first input, it does so by index. -/
def breaches (op : Op) (t : Typing) : Except Mishap (List Breach) :=
  match op with
  | .matMul => matMulBreaches t
  | .concat => concatBreaches t
  | op => .ok (op.breaches t)

/-! ## Links -/

def slotFlaw? (g : Graph) (n : Node) (s : Slot) (v : Value) : Except Mishap (Option LinkFlaw) :=
  match v.node?.bind g.node? with
  | none => .ok none
  | some producer => do
    match (← slot n s).token?.bind producer.uses.get? with
    | none => return some (.noRecord s)
    | some u =>
      if u.user ≠ n.id ∨ u.slot ≠ s then return some (.foreignRecord s u.user u.slot)
      else if u.value ≠ v then return some (.recordedValue s v u.value)
      else return none

def recordFlaw? (g : Graph) (token : Token) (u : Use) : Except Mishap (Option LinkFlaw) :=
  match g.node? u.user with
  | none => .ok (some .missingUser)
  | some user =>
    if hasSlot user u.slot then do
      let o ← slot user u.slot
      if o.value ≠ u.value then return some (.otherValue u.slot o.value)
      else if o.token? ≠ some token then return some (.otherRecord u.slot)
      else return none
    else .ok (some (.missingSlot u.slot))

/-- What is wrong with a connected slot. -/
def slotProblem? (g : Graph) (n : Node) (e : Slot × Value) : Except Mishap (Option Problem) := do
  return (← slotFlaw? g n e.1 e.2).map (.brokenLink n.id e.2)

/-- What is wrong with a record. -/
def recordProblem? (g : Graph) (e : Token × Use) : Except Mishap (Option Problem) := do
  return (← recordFlaw? g e.1 e.2).map (.brokenLink e.2.user e.2.value)

def linkProblems (g : Graph) (n : Node) : Except Mishap (List Problem) := do
  let slots ← n.operands.mapM (slotProblem? g n)
  let records ← (← entries n.uses.slab).mapM (recordProblem? g)
  return slots.reduceOption ++ records.reduceOption

/-! ## Verdicts -/

/-- Everything that is wrong with a node. The rule of its operation is checked with the types that the
checks of results and inputs have come upon. -/
def nodeProblems (g : Graph) (n : Node) : Except Mishap (List Problem) := do
  let results ← (List.range n.results.length).mapM (resultType n)
  let inputs ← n.inputValues.zipIdx.mapM fun e => input g n e.2 e.1
  let predicate ← predicateProblems g n
  let broken ← breaches n.op ⟨inputs.map (·.2), results⟩
  let links ← linkProblems g n
  return Graph.untypedResults { n with results } ++ Graph.resultCountProblems n ++
    Graph.arityProblems n ++ inputs.flatMap (·.1) ++ predicate ++
    broken.map (.brokenRule n.id n.op) ++ links

def problemsAt (g : Graph) (n : NodeId) : Except Mishap (Except Refusal (List Problem)) :=
  match g.nodeOrRefusal n with
  | .error e => .ok (.error e)
  | .ok node => (nodeProblems g node).map .ok

def memberProblems (g : Graph) (f : FuncId) (n : NodeId) : Except Mishap (List Problem) :=
  match g.node? n with
  | none => .ok [.misplaced n none f]
  | some node => do
    let problems ← nodeProblems g node
    return (if node.parent? = some f then [] else [.misplaced n node.parent? f]) ++ problems

/-- Goes on with a search for cycles from another root. The walk must end. -/
def extend (g : Graph) (s : CycleSearch) (root : NodeId) : Except Mishap CycleSearch :=
  match g.visit CycleSearch.walker g.nodeCount root s with
  | some s => .ok s
  | none => .error .endless

def closingNodes (g : Graph) (roots : List NodeId) : Except Mishap (List NodeId) := do
  return (← roots.foldlM (extend g) {}).closing.toList

/-- Everything that is wrong with a function, its nodes in order and the cycles last. -/
def problemsIn (g : Graph) (f : FuncId) : Except Mishap (Except Refusal (List Problem)) :=
  match g.funcOrRefusal f with
  | .error e => .ok (.error e)
  | .ok func => do
    let nodes := (← entries func.roster.order).map (·.2)
    let members ← nodes.mapM (memberProblems g f)
    let closing ← closingNodes g nodes
    return .ok (members.flatten ++ closing.map .cycle)

end Strict

end Dataflow
