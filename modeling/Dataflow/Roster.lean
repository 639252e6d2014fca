import Dataflow.Reference
import Dataflow.Slab.View

/-!
# Rosters

A roster is an ordered list of nodes without repetition. The order is a slab; beside it stands the
position of every listed node in the slab, so that membership and neighbours are found without a
search. The two agree in every roster: the positions are exactly the entries of the slab.
-/

namespace Dataflow

/-- An ordered list of distinct nodes. -/
structure Roster where
  order : Slab NodeId
  positions : NodeMap Handle
  wf : order.Wf
  position_iff : ∀ n h, positions[n]? = some h ↔ (h, n) ∈ order.entries

namespace Roster

/-- The roster without nodes. -/
def empty : Roster where
  order := .empty
  positions := ∅
  wf := .empty
  position_iff n h := by simp [Slab.empty, Slab.entries, Slab.follow]

/-- The nodes in order. -/
def toList (r : Roster) : List NodeId := r.order.toList

/-- The number of nodes. -/
def size (r : Roster) : Nat := r.order.size

/-- Whether a node is listed. -/
def contains (r : Roster) (n : NodeId) : Bool := r.positions.contains n

/-- The first node. -/
def first? (r : Roster) : Option NodeId := r.order.first?.bind r.order.get?

/-- The last node. -/
def last? (r : Roster) : Option NodeId := r.order.last?.bind r.order.get?

/-- The node after a listed node. -/
def next? (r : Roster) (n : NodeId) : Option NodeId := do
  r.order.get? (← r.order.next? (← r.positions[n]?))

/-- The node before a listed node. -/
def prev? (r : Roster) (n : NodeId) : Option NodeId := do
  r.order.get? (← r.order.prev? (← r.positions[n]?))

/-- The nodes from a position on up to the position `last`, unless the end comes first. -/
def rangeFrom (r : Roster) (last : Handle) : Nat → Option Handle → Option (List NodeId)
  | 0, _ => none
  | _ + 1, none => none
  | bound + 1, some h => do
    let n ← r.order.get? h
    if h = last then return [n]
    else return n :: (← r.rangeFrom last bound (r.order.next? h))

/-- The nodes from `first` to `last`, if both are listed in this order. -/
def range? (r : Roster) (first last : NodeId) : Option (List NodeId) := do
  let start ← r.positions[first]?
  let stop ← r.positions[last]?
  r.rangeFrom stop r.size (some start)

/-! ## Editing -/

theorem toList_eq (r : Roster) : r.toList = r.order.entries.map (·.2) := rfl

theorem contains_iff_isSome (r : Roster) (n : NodeId) :
    r.contains n ↔ ∃ h, r.positions[n]? = some h := by
  rw [contains, Std.ExtTreeMap.contains_eq_isSome_getElem?, Option.isSome_iff_exists]

theorem contains_iff (r : Roster) {n : NodeId} : r.contains n ↔ n ∈ r.toList := by
  rw [contains_iff_isSome, toList_eq]
  simp [r.position_iff]

private theorem position_iff_insert {r : Roster} {n : NodeId} (fresh : n ∉ r.toList)
    {anchor? : Option Handle} {h : Handle} {s : Slab NodeId}
    (inserted : r.order.insertBefore anchor? n = .ok (h, s)) (m : NodeId) (g : Handle) :
    (r.positions.insert n h)[m]? = some g ↔ (g, m) ∈ s.entries := by
  rw [Std.ExtTreeMap.getElem?_insert, r.wf.mem_entries_insertBefore inserted, ← r.position_iff]
  by_cases e : n = m
  · subst e
    have absent : r.positions[n]? ≠ some g := fun listed =>
      fresh (List.mem_map.2 ⟨_, (r.position_iff n g).1 listed, rfl⟩)
    simp [absent, eq_comm]
  · have ne : compare n m ≠ .eq := fun h => e (Std.LawfulEqOrd.eq_of_compare h)
    simp [ne, Ne.symm e]

private theorem position_iff_remove {r : Roster} {n : NodeId} {h : Handle}
    (listed : r.positions[n]? = some h) (m : NodeId) (g : Handle) :
    (r.positions.erase n)[m]? = some g ↔ (g, m) ∈ (r.order.remove h).2.entries := by
  rw [Std.ExtTreeMap.getElem?_erase, r.wf.entries_remove, List.mem_filter, ← r.position_iff]
  by_cases e : n = m
  · subst e
    simp only [Std.ReflOrd.compare_self, if_true, reduceCtorEq, listed, Option.some.injEq, ne_eq,
      decide_not, Bool.not_eq_eq_eq_not, Bool.not_true, decide_eq_false_iff_not, false_iff, not_and,
      Classical.not_not]
    exact fun e => e.symm
  · have ne : compare n m ≠ .eq := fun h => e (Std.LawfulEqOrd.eq_of_compare h)
    simp only [ne, if_false, ne_eq, decide_not, Bool.not_eq_eq_eq_not, Bool.not_true,
      decide_eq_false_iff_not]
    refine ⟨fun at_ => ⟨at_, ?_⟩, And.left⟩
    rintro rfl
    have get (k) (hk : r.positions[k]? = some g) := r.wf.get?_eq_some_iff.2 ((r.position_iff k g).1 hk)
    exact e (Option.some.inj ((get n listed).symm.trans (get m at_)))

/-- Lists a new node at a position of the slab, or at the end. -/
def insertAt? (r : Roster) (n : NodeId) (fresh : n ∉ r.toList) (anchor? : Option Handle) :
    Option Roster :=
  match inserted : r.order.insertBefore anchor? n with
  | .error _ => none
  | .ok (h, order) => some
    { order, positions := r.positions.insert n h, wf := r.wf.insertBefore inserted
      position_iff := position_iff_insert fresh inserted }

/-- Lists a node before another or at the end; refused if the node is listed already or the other
is not. -/
def insert? (r : Roster) (n : NodeId) (before? : Option NodeId) : Option Roster :=
  if listed : r.contains n then none
  else
    have fresh : n ∉ r.toList := fun h => listed (r.contains_iff.2 h)
    match before? with
    | none => r.insertAt? n fresh none
    | some b => r.positions[b]?.bind fun h => r.insertAt? n fresh (some h)

/-- Takes a node off the list; refused if it is not listed. -/
def remove? (r : Roster) (n : NodeId) : Option Roster :=
  match listed : r.positions[n]? with
  | none => none
  | some h => some
    { order := (r.order.remove h).2, positions := r.positions.erase n, wf := r.wf.remove h
      position_iff := position_iff_remove listed }

end Roster

end Dataflow
