import Std.Data.ExtTreeMap
import Std.Data.ExtTreeSet

/-!
# References

Nodes and functions are named by numbers that are never given out twice. The two kinds of identity
are separate types, ordered by their numbers, and each has its own mark in texts: `%` for nodes and
`@` for functions.

A value is what an operand slot reads: one result of one node, or nothing. It only names the result;
whether such a node and such a result exist is a question to the graph.
-/

namespace Dataflow

/-! ## Identities -/

/-- The identity of a node. -/
structure NodeId where
  number : Nat
deriving DecidableEq, Hashable, Repr

/-- The identity of a function. -/
structure FuncId where
  number : Nat
deriving DecidableEq, Hashable, Repr

/-- Node identities are ordered by their numbers. -/
instance : Ord NodeId := ⟨fun a b => compare a.number b.number⟩

instance : Std.TransOrd NodeId where
  eq_swap {a b} := (Std.OrientedOrd.eq_swap : compare a.number b.number = _)
  isLE_trans {a _ c} hab hbc :=
    (Std.TransOrd.isLE_trans hab hbc : (compare a.number c.number).isLE)

instance : Std.LawfulEqOrd NodeId where
  eq_of_compare {a b} h := by
    have same : a.number = b.number := Std.LawfulEqOrd.eq_of_compare h
    cases a
    cases b
    exact congrArg NodeId.mk same

/-- A finite map from nodes, traversed in the order of their numbers. -/
abbrev NodeMap (β : Type) := Std.ExtTreeMap NodeId β

/-- A finite set of nodes. -/
abbrev NodeSet := Std.ExtTreeSet NodeId

/-- The text of a node's identity, as in `%3`. -/
def NodeId.text (n : NodeId) : String := "%" ++ toString n.number

/-- The text of a function's identity, as in `@0`. -/
def FuncId.text (f : FuncId) : String := "@" ++ toString f.number

/-- A function's identity spelled out with its type, as in `FunctionId(0)`. -/
def FuncId.spelled (f : FuncId) : String := "FunctionId(" ++ toString f.number ++ ")"

/-! ## Values -/

/-- A reference to a result of a node, or the null reference of a disconnected slot. -/
inductive Value where
  | null
  | result (node : NodeId) (index : Nat)
deriving DecidableEq, Hashable, Repr

namespace Value

/-- Whether nothing is referred to. -/
def isNull : Value → Bool
  | null => true
  | result _ _ => false

/-- The node referred to. -/
def node? : Value → Option NodeId
  | null => none
  | result n _ => some n

/-- The number of the result referred to, zero for the null reference. -/
def index : Value → Nat
  | null => 0
  | result _ i => i

/-- The text of a value, as in `%3:0`. -/
def text : Value → String
  | null => "null"
  | result n i => n.text ++ ":" ++ Nat.repr i

end Value

end Dataflow
