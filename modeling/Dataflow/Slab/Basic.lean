/-!
# Ordered lists in a slab

A `Slab` is a doubly linked list whose elements and links live in the cells of one array. Inserting
an element returns a `Handle`: the index of its cell and the generation the cell had at that time.
Removing an element raises the generation of its cell and puts the cell on a stack, from which the
next insertion takes it. A handle whose element is gone is *stale*: it resolves to nothing, also
when its cell is in use again.

No operation changes the links of an element other than the neighbours of the place it works at, so
a caller who reads `next? h` before removing the element at `h` can walk on from there.
-/

namespace Dataflow

/-- The position of an element in a slab, valid as long as the element is there. Indices do not
wrap around, since slabs are taken to have fewer than `2 ^ 32` cells; generations do. -/
structure Handle where
  index : Nat
  generation : UInt32
deriving DecidableEq, Hashable, Repr

/-- One cell of a slab: an element with the indices of its neighbours, or an empty place. -/
structure Cell (α : Type) where
  element? : Option α
  /-- How often the cell has been emptied. -/
  emptied : Nat
  prev? : Option Nat
  next? : Option Nat

/-- The generation of a cell tells how often it has been emptied, up to multiples of `2 ^ 32`. -/
def Cell.generation {α : Type} (c : Cell α) : UInt32 := UInt32.ofNat c.emptied

/-- A list of elements linked through the cells of an array. -/
structure Slab (α : Type) where
  cells : Array (Cell α)
  /-- The empty cells, the one emptied last in front. -/
  free : List Nat
  head? : Option Nat
  tail? : Option Nat
  size : Nat

namespace Slab

/-- Why an element could not be inserted. -/
inductive InsertError where
  | staleAnchor
deriving DecidableEq, Repr

/-- What is said about a refused insertion. -/
def InsertError.message : InsertError → String
  | .staleAnchor => "insertion point must be a live handle"

variable {α : Type}

/-- The list without elements and without cells. -/
def empty : Slab α := ⟨#[], [], none, none, 0⟩

/-! ## Looking at a list -/

/-- The cell that `h` stands for, unless `h` is stale. -/
def live? (s : Slab α) (h : Handle) : Option (Cell α) :=
  s.cells[h.index]?.filter fun c => c.generation == h.generation && c.element?.isSome

/-- Whether the element of `h` is in the list. -/
def contains (s : Slab α) (h : Handle) : Bool := (s.live? h).isSome

/-- The element of `h`. -/
def get? (s : Slab α) (h : Handle) : Option α := (s.live? h).bind (·.element?)

/-- The current handle of the cell with index `i`. -/
def handleAt? (s : Slab α) (i : Nat) : Option Handle := s.cells[i]?.map fun c => ⟨i, c.generation⟩

/-- The handle of the first element. -/
def first? (s : Slab α) : Option Handle := s.head?.bind s.handleAt?

/-- The handle of the last element. -/
def last? (s : Slab α) : Option Handle := s.tail?.bind s.handleAt?

/-- The handle of the element after that of `h`. -/
def next? (s : Slab α) (h : Handle) : Option Handle :=
  (s.live? h).bind fun c => c.next?.bind s.handleAt?

/-- The handle of the element before that of `h`. -/
def prev? (s : Slab α) (h : Handle) : Option Handle :=
  (s.live? h).bind fun c => c.prev?.bind s.handleAt?

/-- The elements met from a cell on by following `link`, with their handles, at most `bound` of
them. -/
def follow (s : Slab α) (link : Cell α → Option Nat) : Nat → Option Nat → List (Handle × α)
  | 0, _ => []
  | _ + 1, none => []
  | bound + 1, some i =>
    match s.cells[i]? with
    | none => []
    | some c =>
      match c.element? with
      | none => []
      | some x => (⟨i, c.generation⟩, x) :: s.follow link bound (link c)

/-- The elements with their handles, front to back. -/
def entries (s : Slab α) : List (Handle × α) := s.follow (·.next?) s.size s.head?

/-- The elements front to back. -/
def toList (s : Slab α) : List α := s.entries.map (·.2)

/-- The elements with their handles, back to front. -/
def entriesBack (s : Slab α) : List (Handle × α) := s.follow (·.prev?) s.size s.tail?

/-! ## Changing a list -/

/-- Changes the cell with index `i`. -/
def modifyCell (s : Slab α) (i : Nat) (f : Cell α → Cell α) : Slab α :=
  { s with cells := s.cells.modify i f }

/-- The handle of the next element to be inserted: the cell emptied last, or else a new cell. -/
def nextHandle (s : Slab α) : Handle :=
  match s.free with
  | [] => ⟨s.cells.size, 0⟩
  | i :: _ => ⟨i, (s.cells[i]?.map (·.generation)).getD 0⟩

/-- Puts `x` into the cell of `nextHandle`, not yet linked to its neighbours. -/
def place (s : Slab α) (x : α) : Slab α :=
  match s.free with
  | [] => { s with cells := s.cells.push ⟨some x, 0, none, none⟩, size := s.size + 1 }
  | i :: free =>
    { s.modifyCell i ({ · with element? := some x }) with free, size := s.size + 1 }

/-- Makes the cell `next?` follow the cell `i?`. -/
def setNext (s : Slab α) (i? next? : Option Nat) : Slab α :=
  match i? with
  | none => { s with head? := next? }
  | some i => s.modifyCell i ({ · with next? })

/-- Makes the cell `prev?` precede the cell `i?`. -/
def setPrev (s : Slab α) (i? prev? : Option Nat) : Slab α :=
  match i? with
  | none => { s with tail? := prev? }
  | some i => s.modifyCell i ({ · with prev? })

/-- The cell before the cell `at?`, where no cell stands for the place behind the last. -/
def before? (s : Slab α) (at? : Option Nat) : Option Nat :=
  match at? with
  | none => s.tail?
  | some i => s.cells[i]?.bind (·.prev?)

/-- Links the placed cell `i` in before the cell `at?`. -/
def linkBefore (s : Slab α) (i : Nat) (at? : Option Nat) : Slab α :=
  let prev? := s.before? at?
  ((s.modifyCell i ({ · with prev?, next? := at? })).setNext prev? (some i)).setPrev at? (some i)

/-- Appends `x`. -/
def push (s : Slab α) (x : α) : Handle × Slab α :=
  (s.nextHandle, (s.place x).linkBefore s.nextHandle.index none)

/-- Inserts `x` before the element of `anchor?`, or at the end when there is no anchor. -/
def insertBefore (s : Slab α) (anchor? : Option Handle) (x : α) :
    Except InsertError (Handle × Slab α) :=
  match anchor? with
  | none => .ok (s.push x)
  | some anchor =>
    if s.contains anchor then
      .ok (s.nextHandle, (s.place x).linkBefore s.nextHandle.index (some anchor.index))
    else .error .staleAnchor

/-- Empties the unlinked cell `i`, which raises its generation. -/
def release (s : Slab α) (i : Nat) : Slab α :=
  { s.modifyCell i (fun c => ⟨none, c.emptied + 1, none, none⟩) with
    free := i :: s.free, size := s.size - 1 }

/-- Removes the element of `h` and returns it; a stale handle changes nothing. -/
def remove (s : Slab α) (h : Handle) : Option α × Slab α :=
  match s.live? h with
  | none => (none, s)
  | some c => (c.element?, ((s.setNext c.prev? c.next?).setPrev c.next? c.prev?).release h.index)

end Slab

end Dataflow
