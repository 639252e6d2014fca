import Dataflow.Fault
import Dataflow.Node.Structure

/-!
# Layout of nodes

The types of the results of a node stand in a row with a fixed number of places. The first places are in
use, with or without a type; the others are empty, and stay empty whatever is done with the row. Both
equality and hashing go over the whole row, each in its own way: equality compares field by field, and a
hash is what a hasher makes of the fields that are fed to it one after the other.
-/

namespace Dataflow

/-- A row of places for types, of which the first `count` are in use. -/
structure TypeRow where
  types : Vector (Option TensorType) maxResults
  count : Nat
  count_le : count ≤ maxResults
  vacant : ∀ i, count ≤ i → ∀ inside : i < maxResults, types[i] = none

namespace TypeRow

/-- The row with no place in use. -/
def empty : TypeRow where
  types := .replicate maxResults none
  count := 0
  count_le := Nat.zero_le _
  vacant := by simp

/-- Takes the next place into use and writes the type there, if one is given. -/
def add? (r : TypeRow) (t? : Option TensorType) : Option TypeRow :=
  if room : r.count < maxResults then
    some {
      types := match t? with
        | some t => r.types.set r.count (some t)
        | none => r.types
      count := r.count + 1
      count_le := room
      vacant := fun i unused inside => by
        have empty := r.vacant i (Nat.le_of_lt unused) inside
        cases t? with
        | none => exact empty
        | some t => rw [Vector.getElem_set_ne _ _ (Nat.ne_of_lt unused), empty] }
  else none

/-- Writes a type into a place in use. -/
def setType? (r : TypeRow) (i : Nat) (t : TensorType) : Option TypeRow :=
  if used : i < r.count then
    some {
      r with
      types := r.types.set i (some t) (Nat.lt_of_lt_of_le used r.count_le)
      vacant := fun j unused inside => by
        rw [Vector.getElem_set_ne _ _ (Nat.ne_of_lt (Nat.lt_of_lt_of_le used unused)),
          r.vacant j unused inside] }
  else none

/-- The row in which the given types are laid out one after the other, as far as there is room. -/
def ofList (ts : List (Option TensorType)) : TypeRow :=
  ts.foldl (fun r t? => (r.add? t?).getD r) empty

/-- The types of the places in use. -/
def toList (r : TypeRow) : List (Option TensorType) := r.types.toList.take r.count

end TypeRow

/-! ## Hashing -/

/-- What is fed to a hasher in one step. -/
inductive HashItem where
  | op (op : Op)
  | size (n : Nat)
  | type (type? : Option TensorType)
  | value (value : Value)
deriving DecidableEq, Hashable

/-- A hasher takes items into its state one after the other, and gives a hash in the end. -/
structure Hasher (σ : Type) where
  start : σ
  write : σ → HashItem → σ
  finish : σ → UInt64

/-- The hasher that mixes the hashes of the items. -/
def Hasher.mixing : Hasher UInt64 := ⟨7, fun s item => mixHash s (hash item), id⟩

namespace Node

/-- The types of the results as they are laid out. -/
def typeRow (n : Node) : TypeRow := .ofList n.results

/-- Structural equality, field by field. -/
def isEqual (a b : Node) : Bool :=
  a.op == b.op && a.typeRow.count == b.typeRow.count && a.typeRow.types == b.typeRow.types &&
    a.predicate.value == b.predicate.value && a.inputs.length == b.inputs.length &&
    a.inputValues == b.inputValues

/-- What is fed to a hasher, in order. A row is fed with its number of places, since it is an array. -/
def feed (n : Node) : List HashItem :=
  [.op n.op, .size n.typeRow.count, .size maxResults] ++ n.typeRow.types.toList.map .type ++
    [.value n.predicate.value, .size n.inputs.length] ++ n.inputValues.map .value

/-- The structural hash of a node. -/
def structuralHash {σ : Type} (h : Hasher σ) (n : Node) : UInt64 :=
  h.finish (n.feed.foldl h.write h.start)

end Node

end Dataflow
