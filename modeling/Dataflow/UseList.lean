import Dataflow.Fault
import Dataflow.Slab.View

/-!
# Uses

Every node keeps the list of its uses: records that say which slot of which node reads which value.
The reading slot keeps the token of its record, so a use can be taken out of the list without a
search. A use list is a slab that is always in order.
-/

namespace Dataflow

/-- The record that `slot` of `user` reads `value`. -/
structure Use where
  user : NodeId
  slot : Slot
  value : Value
deriving DecidableEq, Repr

/-- The position of a record in its use list. -/
abbrev Token := Handle

/-- The uses of all results of one node, in the order in which they were recorded. -/
structure UseList where
  slab : Slab Use
  wf : slab.Wf

namespace UseList

/-- No uses. -/
def empty : UseList := ⟨.empty, .empty⟩

instance : Inhabited UseList := ⟨empty⟩

/-- The records with their tokens. -/
def entries (l : UseList) : List (Token × Use) := l.slab.entries

/-- The records. -/
def toList (l : UseList) : List Use := l.slab.toList

/-- The number of records. -/
def size (l : UseList) : Nat := l.slab.size

/-- The record of a token, unless it has been removed. -/
def get? (l : UseList) (t : Token) : Option Use := l.slab.get? t

/-- Whether the record of a token is still there. -/
def contains (l : UseList) (t : Token) : Bool := l.slab.contains t

/-- The token of the next record. -/
def nextToken (l : UseList) : Token := l.slab.nextHandle

/-- Appends a record; its token is `nextToken`. -/
def add (l : UseList) (u : Use) : UseList := ⟨(l.slab.push u).2, l.wf.push u⟩

/-- Removes the record of a token. -/
def remove (l : UseList) (t : Token) : UseList := ⟨(l.slab.remove t).2, l.wf.remove t⟩

/-- The records of the uses of result `i`. -/
def usesOf (l : UseList) (i : Nat) : List Use := l.toList.filter (·.value.index == i)

/-- The tokens of the uses of result `i`, or of all uses when no result is given. -/
def tokensOf (l : UseList) (i? : Option Nat) : List Token :=
  (l.entries.filter fun e => i?.all (e.2.value.index == ·)).map (·.1)

/-! ## The view -/

theorem entries_empty : empty.entries = [] := rfl

theorem toList_eq (l : UseList) : l.toList = l.entries.map (·.2) := rfl

theorem size_eq (l : UseList) : l.size = l.entries.length := l.wf.size_eq

theorem nodup_token (l : UseList) : (l.entries.map (·.1)).Nodup := l.wf.nodup_handle

theorem get?_eq_some_iff (l : UseList) {t : Token} {u : Use} :
    l.get? t = some u ↔ (t, u) ∈ l.entries :=
  l.wf.get?_eq_some_iff

theorem contains_iff (l : UseList) {t : Token} : l.contains t ↔ t ∈ l.entries.map (·.1) :=
  l.wf.contains_iff

theorem entries_add (l : UseList) (u : Use) :
    (l.add u).entries = l.entries ++ [(l.nextToken, u)] :=
  l.wf.entries_push u

theorem entries_remove (l : UseList) (t : Token) :
    (l.remove t).entries = l.entries.filter (·.1 ≠ t) :=
  l.wf.entries_remove t

end UseList

end Dataflow
