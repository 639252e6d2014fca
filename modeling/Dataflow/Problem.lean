import Dataflow.Fault
import Dataflow.Op.Rules

/-!
# Problems

What can be wrong with a stored node or with a function, as found by a diagnosis.
-/

namespace Dataflow

/-- Why a predicate is of no use. -/
inductive PredicateFlaw where
  | missingNode
  | missingResult
  | notBoolean (type : TensorType)
deriving DecidableEq, Repr

/-- What is said about a useless predicate. -/
def PredicateFlaw.message : PredicateFlaw → String
  | missingNode => "refers to a missing node"
  | missingResult => "refers to a missing result"
  | notBoolean t => "must be boolean, found " ++ t.text

/-- How a slot and a use record disagree. -/
inductive LinkFlaw where
  | noRecord (slot : Slot)
  | foreignRecord (slot : Slot) (user : NodeId) (other : Slot)
  | recordedValue (slot : Slot) (read recorded : Value)
  | missingUser
  | missingSlot (slot : Slot)
  | otherValue (slot : Slot) (read : Value)
  | otherRecord (slot : Slot)
deriving DecidableEq, Repr

/-- What is said about a broken link. -/
def LinkFlaw.message : LinkFlaw → String
  | noRecord s => s.label ++ " has no use record"
  | foreignRecord s user other =>
    s.label ++ " points at the record of " ++ user.text ++ " " ++ other.label
  | recordedValue s read recorded =>
    s.label ++ " reads " ++ read.text ++ " but its record says " ++ recorded.text
  | missingUser => "user does not exist"
  | missingSlot s => "user has no " ++ s.label
  | otherValue s read => s.label ++ " of the user reads " ++ read.text
  | otherRecord s => s.label ++ " of the user holds another record"

/-- A finding of a diagnosis. -/
inductive Problem where
  | untypedResult (node : NodeId) (index : Nat)
  | resultCount (node : NodeId) (op : Op) (found : Nat)
  | arity (node : NodeId) (op : Op) (found : Nat)
  | openInput (node : NodeId) (input : Nat) (name : String)
  | danglingInput (node : NodeId) (input : Nat) (target : NodeId)
  | missingResult (node : NodeId) (input : Nat) (value : Value)
  | badPredicate (node : NodeId) (value : Value) (flaw : PredicateFlaw)
  | brokenRule (node : NodeId) (op : Op) (breach : Breach)
  | brokenLink (user : NodeId) (value : Value) (flaw : LinkFlaw)
  | cycle (node : NodeId)
  | misplaced (node : NodeId) (claimed? : Option FuncId) (func : FuncId)
deriving DecidableEq, Repr

/-- An owner that a node claims to have, spelled out, as in `Some(FunctionId(0))`. -/
def claimedText : Option FuncId → String
  | none => "None"
  | some f => "Some(" ++ f.spelled ++ ")"

/-- What is said about a problem. -/
def Problem.message : Problem → String
  | untypedResult n i => "node " ++ n.text ++ ": result " ++ Nat.repr i ++ " has no type"
  | resultCount n op found =>
    "node " ++ n.text ++ " (" ++ op.text ++ "): expected " ++
      Nat.repr op.signature.results.length ++ " results, found " ++ Nat.repr found
  | arity n op found =>
    "node " ++ n.text ++ " (" ++ op.text ++ "): expected " ++ op.arityText ++ " inputs, found " ++
      Nat.repr found
  | openInput n i name =>
    "node " ++ n.text ++ ": input " ++ Nat.repr i ++ " (" ++ name ++ ") is not connected"
  | danglingInput n i target =>
    "node " ++ n.text ++ ": input " ++ Nat.repr i ++ " refers to missing node " ++ target.text
  | missingResult n i v =>
    "node " ++ n.text ++ ": input " ++ Nat.repr i ++ " refers to " ++ v.text ++
      ", which has no such result"
  | badPredicate n v flaw =>
    "node " ++ n.text ++ ": predicate " ++ v.text ++ " is invalid: " ++ flaw.message
  | brokenRule n op breach => "node " ++ n.text ++ " (" ++ op.text ++ "): " ++ breach.message
  | brokenLink user v flaw =>
    "use-def link broken between user " ++ user.text ++ " and " ++ v.text ++ ": " ++ flaw.message
  | cycle n => "node " ++ n.text ++ " is part of an operand cycle"
  | misplaced n claimed? f =>
    "node " ++ n.text ++ " claims parent " ++ claimedText claimed? ++ " but is listed by " ++ f.text

end Dataflow
