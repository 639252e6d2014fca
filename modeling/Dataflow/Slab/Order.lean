import Dataflow.Slab.Basic

/-!
# The order of a slab

A slab is in order when its occupied cells form one sequence, linked both ways, and its other cells
are exactly those on the free stack (`Ordered`). Placing an element and linking it in inserts its
cell into the sequence (`Ordered.insert`); unlinking and releasing a cell deletes it
(`Ordered.remove`).
-/

namespace Dataflow

namespace Slab

variable {α : Type}

/-- The sequence `order` lists the occupied cells as they are linked, and the free stack lists the
other cells. -/
structure Ordered (s : Slab α) (order : List Nat) : Prop where
  nodup : (order ++ s.free).Nodup
  mem_iff : ∀ i, i ∈ order ++ s.free ↔ i < s.cells.size
  vacant : ∀ i ∈ s.free, ∀ c, s.cells[i]? = some c → c.element? = none
  linked : ∀ a i b, order = a ++ i :: b →
    ∃ c, s.cells[i]? = some c ∧ c.element?.isSome ∧ c.prev? = a.getLast? ∧ c.next? = b.head?
  head : s.head? = order.head?
  tail : s.tail? = order.getLast?
  size : s.size = order.length

/-- Some sequence of cells is the order of the slab. -/
def Wf (s : Slab α) : Prop := ∃ order, s.Ordered order

theorem ordered_empty : (empty : Slab α).Ordered [] where
  nodup := by simp [empty]
  mem_iff := by simp [empty]
  vacant := by simp [empty]
  linked := by simp
  head := rfl
  tail := rfl
  size := rfl

theorem Wf.empty : (empty : Slab α).Wf := ⟨[], ordered_empty⟩

/-! ## Splitting a list -/

/-- A place in a list with `n` inserted is that of `n`, or comes from the part before or after. -/
private theorem split_insert {a b a' b' : List Nat} {n j : Nat}
    (h : a ++ n :: b = a' ++ j :: b') :
    (j = n ∧ a' = a ∧ b' = b) ∨
      (∃ m, a = a' ++ j :: m ∧ b' = m ++ n :: b) ∨ (∃ m, b = m ++ j :: b' ∧ a' = a ++ n :: m) := by
  rcases List.append_eq_append_iff.1 h with ⟨m, rfl, hm⟩ | ⟨m, rfl, hm⟩
  · cases m with
    | nil =>
      simp only [List.nil_append, List.cons.injEq] at hm
      obtain ⟨rfl, rfl⟩ := hm
      simp
    | cons x m =>
      simp only [List.cons_append, List.cons.injEq] at hm
      obtain ⟨rfl, rfl⟩ := hm
      exact .inr (.inr ⟨m, rfl, rfl⟩)
  · cases m with
    | nil =>
      simp only [List.nil_append, List.cons.injEq] at hm
      obtain ⟨rfl, rfl⟩ := hm
      simp
    | cons x m =>
      simp only [List.cons_append, List.cons.injEq] at hm
      obtain ⟨rfl, rfl⟩ := hm
      exact .inr (.inl ⟨m, rfl, rfl⟩)

/-! ## What the operations do to the cells -/

@[simp] theorem free_modifyCell (s : Slab α) (i : Nat) (f : Cell α → Cell α) :
    (s.modifyCell i f).free = s.free := rfl

@[simp] theorem head?_modifyCell (s : Slab α) (i : Nat) (f : Cell α → Cell α) :
    (s.modifyCell i f).head? = s.head? := rfl

@[simp] theorem tail?_modifyCell (s : Slab α) (i : Nat) (f : Cell α → Cell α) :
    (s.modifyCell i f).tail? = s.tail? := rfl

@[simp] theorem size_modifyCell (s : Slab α) (i : Nat) (f : Cell α → Cell α) :
    (s.modifyCell i f).size = s.size := rfl

theorem getElem?_modifyCell (s : Slab α) (i j : Nat) (f : Cell α → Cell α) :
    (s.modifyCell i f).cells[j]? = if i = j then s.cells[j]?.map f else s.cells[j]? := by
  simp [modifyCell, Array.getElem?_modify]

theorem cells_setNext (s : Slab α) (i? n? : Option Nat) (j : Nat) :
    (s.setNext i? n?).cells[j]? =
      s.cells[j]?.map fun c => { c with next? := if i? = some j then n? else c.next? } := by
  cases i? with
  | none => simp [setNext]
  | some i =>
    by_cases h : i = j
    · simp [setNext, getElem?_modifyCell, h]
    · simp [setNext, getElem?_modifyCell, h]

theorem cells_setPrev (s : Slab α) (i? p? : Option Nat) (j : Nat) :
    (s.setPrev i? p?).cells[j]? =
      s.cells[j]?.map fun c => { c with prev? := if i? = some j then p? else c.prev? } := by
  cases i? with
  | none => simp [setPrev]
  | some i =>
    by_cases h : i = j
    · simp [setPrev, getElem?_modifyCell, h]
    · simp [setPrev, getElem?_modifyCell, h]

theorem free_setNext (s : Slab α) (i? n? : Option Nat) : (s.setNext i? n?).free = s.free := by
  cases i? <;> rfl

theorem free_setPrev (s : Slab α) (i? p? : Option Nat) : (s.setPrev i? p?).free = s.free := by
  cases i? <;> rfl

theorem size_setNext (s : Slab α) (i? n? : Option Nat) : (s.setNext i? n?).size = s.size := by
  cases i? <;> rfl

theorem size_setPrev (s : Slab α) (i? p? : Option Nat) : (s.setPrev i? p?).size = s.size := by
  cases i? <;> rfl

theorem head?_setNext (s : Slab α) (i? n? : Option Nat) :
    (s.setNext i? n?).head? = if i? = none then n? else s.head? := by
  cases i? <;> simp [setNext]

theorem head?_setPrev (s : Slab α) (i? p? : Option Nat) : (s.setPrev i? p?).head? = s.head? := by
  cases i? <;> rfl

theorem tail?_setNext (s : Slab α) (i? n? : Option Nat) : (s.setNext i? n?).tail? = s.tail? := by
  cases i? <;> rfl

theorem tail?_setPrev (s : Slab α) (i? p? : Option Nat) :
    (s.setPrev i? p?).tail? = if i? = none then p? else s.tail? := by
  cases i? <;> simp [setPrev]

theorem cells_linkBefore (s : Slab α) (i : Nat) (at? : Option Nat) (j : Nat) :
    (s.linkBefore i at?).cells[j]? = s.cells[j]?.map fun c =>
      { c with
        prev? := if at? = some j then some i else if i = j then s.before? at? else c.prev?
        next? := if s.before? at? = some j then some i else if i = j then at? else c.next? } := by
  simp only [linkBefore, cells_setPrev, cells_setNext, getElem?_modifyCell]
  by_cases h : i = j
  · simp [h, Function.comp_def]
  · simp [h, Function.comp_def]

theorem cellCount_linkBefore (s : Slab α) (i : Nat) (at? : Option Nat) :
    (s.linkBefore i at?).cells.size = s.cells.size := by
  simp only [linkBefore, setNext, setPrev]
  split <;> split <;> simp [modifyCell]

theorem free_linkBefore (s : Slab α) (i : Nat) (at? : Option Nat) :
    (s.linkBefore i at?).free = s.free := by
  simp [linkBefore, free_setPrev, free_setNext]

theorem size_linkBefore (s : Slab α) (i : Nat) (at? : Option Nat) :
    (s.linkBefore i at?).size = s.size := by
  simp [linkBefore, size_setPrev, size_setNext]

theorem head?_linkBefore (s : Slab α) (i : Nat) (at? : Option Nat) :
    (s.linkBefore i at?).head? = if s.before? at? = none then some i else s.head? := by
  simp [linkBefore, head?_setPrev, head?_setNext]

theorem tail?_linkBefore (s : Slab α) (i : Nat) (at? : Option Nat) :
    (s.linkBefore i at?).tail? = if at? = none then some i else s.tail? := by
  simp [linkBefore, tail?_setPrev, tail?_setNext]

theorem free_place (s : Slab α) (x : α) : (s.place x).free = s.free.tail := by
  simp only [place]
  split <;> simp_all

theorem size_place (s : Slab α) (x : α) : (s.place x).size = s.size + 1 := by
  simp only [place]
  split <;> rfl

theorem head?_place (s : Slab α) (x : α) : (s.place x).head? = s.head? := by
  simp only [place]
  split <;> rfl

theorem tail?_place (s : Slab α) (x : α) : (s.place x).tail? = s.tail? := by
  simp only [place]
  split <;> rfl

theorem cellCount_place (s : Slab α) (x : α) :
    (s.place x).cells.size = s.cells.size + if s.free = [] then 1 else 0 := by
  simp only [place]
  split <;> simp_all [modifyCell]

theorem cells_place_of_ne (s : Slab α) (x : α) {j : Nat} (h : j ≠ s.nextHandle.index) :
    (s.place x).cells[j]? = s.cells[j]? := by
  simp only [place, nextHandle] at h ⊢
  split at h <;> rename_i hf
  · rw [Array.getElem?_push, if_neg h]
  · simp only [getElem?_modifyCell]
    rw [if_neg (Ne.symm h)]

/-! ## Insertion -/

theorem Ordered.lt_cellCount {s : Slab α} {order : List Nat} (h : s.Ordered order) {i : Nat}
    (hi : i ∈ order) : i < s.cells.size :=
  (h.mem_iff i).1 (List.mem_append_left _ hi)

/-- The cell of the next element holds none so far. -/
theorem Ordered.nextIndex_notMem {s : Slab α} {order : List Nat} (h : s.Ordered order) :
    s.nextHandle.index ∉ order := by
  intro hn
  have nodup := h.nodup
  have lt := h.lt_cellCount hn
  simp only [nextHandle] at hn lt
  split at hn <;> rename_i hf
  · simp [hf] at lt
  · rw [hf, List.nodup_append] at nodup
    exact nodup.2.2 _ hn _ (by simp) rfl

theorem Ordered.cells_place {s : Slab α} {order : List Nat} (h : s.Ordered order) (x : α) :
    ∃ c, (s.place x).cells[s.nextHandle.index]? = some c ∧ c.element? = some x ∧
      c.generation = s.nextHandle.generation := by
  simp only [place, nextHandle]
  split <;> rename_i hf
  · exact ⟨⟨some x, 0, none, none⟩, by simp, rfl, rfl⟩
  · rename_i i free
    have lt : i < s.cells.size := (h.mem_iff i).1 (by simp [hf])
    exact ⟨{ s.cells[i] with element? := some x }, by simp [getElem?_modifyCell, lt], rfl,
      by simp [lt, Cell.generation]⟩

theorem Ordered.before?_place {s : Slab α} {a b : List Nat} (h : s.Ordered (a ++ b)) (x : α) :
    (s.place x).before? b.head? = a.getLast? := by
  cases b with
  | nil => simpa [before?, tail?_place] using h.tail
  | cons i b =>
    obtain ⟨c, hc, -, hp, -⟩ := h.linked a i b rfl
    have ne : i ≠ s.nextHandle.index := fun e => h.nextIndex_notMem (e ▸ by simp)
    simp [before?, cells_place_of_ne s x ne, hc, hp]

/-- Placing an element and linking it in before the rest `b` inserts its cell there. -/
theorem Ordered.insert {s : Slab α} {a b : List Nat} (h : s.Ordered (a ++ b)) (x : α) :
    ((s.place x).linkBefore s.nextHandle.index b.head?).Ordered
      (a ++ s.nextHandle.index :: b) := by
  have fresh := h.nextIndex_notMem
  obtain ⟨cell, placed, holds, -⟩ := h.cells_place x
  have before := h.before?_place x
  have nodup := h.nodup
  have index : s.nextHandle.index = s.free.headD s.cells.size := by
    simp only [nextHandle]
    split <;> simp_all
  have nodup' : ((a ++ s.nextHandle.index :: b) ++ s.free.tail).Nodup := by
    cases hf : s.free <;> grind
  generalize hn : s.nextHandle.index = n at *
  constructor
  · rwa [free_linkBefore, free_place]
  · intro i
    have old := h.mem_iff i
    rw [free_linkBefore, free_place, cellCount_linkBefore, cellCount_place]
    cases hf : s.free with
    | nil =>
      simp only [hf, List.headD_nil] at index old
      subst index
      simp only [List.tail_nil, List.mem_append, List.mem_cons, List.not_mem_nil, or_false] at old ⊢
      grind
    | cons m free =>
      simp only [hf, List.headD_cons] at index old
      subst index
      simp only [List.tail_cons, List.mem_append, List.mem_cons] at old ⊢
      grind
  · intro i hi c hc
    rw [free_linkBefore, free_place] at hi
    have ne : i ≠ n := by
      rintro rfl
      exact (List.nodup_append.1 nodup').2.2 _ (by simp) _ hi rfl
    rw [cells_linkBefore, cells_place_of_ne s x (by rwa [hn])] at hc
    obtain ⟨c', hc', rfl⟩ := Option.map_eq_some_iff.1 hc
    exact h.vacant i (List.mem_of_mem_tail hi) c' hc'
  · intro a' j b' split
    simp only [cells_linkBefore, before]
    rcases split_insert split with ⟨rfl, rfl, rfl⟩ | ⟨m, rfl, rfl⟩ | ⟨m, rfl, rfl⟩
    · rw [placed, Option.map_some]
      refine ⟨_, rfl, by simp [holds], ?_, ?_⟩
      · have : b'.head? ≠ some j := fun e => fresh (by simp [List.mem_of_mem_head? e])
        simp [this]
      · have : a'.getLast? ≠ some j := fun e => fresh (by simp [List.mem_of_getLast? e])
        simp [this]
    · have ne : j ≠ n := by grind
      obtain ⟨c, hc, he, hp, hq⟩ := h.linked a' j (m ++ b) (by simp)
      rw [cells_place_of_ne s x (by rwa [hn]), hc, Option.map_some]
      refine ⟨_, rfl, he, ?_, ?_⟩
      · have : b.head? ≠ some j := fun e => by
          have := List.mem_of_mem_head? e
          grind
        simp [this, Ne.symm ne, hp]
      · cases m with
        | nil => simp
        | cons k m =>
          have : (a' ++ j :: k :: m).getLast? ≠ some j := fun e => by
            have last : (k :: m).getLast? = some j := by
              simpa [List.getLast?_append, List.getLast?_cons_cons] using e
            have := List.mem_of_getLast? last
            grind
          simp only [if_neg this, if_neg (Ne.symm ne), hq]
          simp
    · have ne : j ≠ n := by grind
      obtain ⟨c, hc, he, hp, hq⟩ := h.linked (a ++ m) j b' (by simp)
      rw [cells_place_of_ne s x (by rwa [hn]), hc, Option.map_some]
      refine ⟨_, rfl, he, ?_, ?_⟩
      · cases m with
        | nil => simp
        | cons k m =>
          have : (k :: m ++ j :: b').head? ≠ some j := fun e => by
            simp at e
            grind
          simp only [if_neg this, if_neg (Ne.symm ne), hp]
          simp [List.getLast?_append]
      · have : a.getLast? ≠ some j := fun e => by
          have := List.mem_of_getLast? e
          grind
        simp [this, Ne.symm ne, hq]
  · rw [head?_linkBefore, before, head?_place, h.head]
    cases a <;> simp
  · rw [tail?_linkBefore, tail?_place, h.tail]
    cases b <;> simp [List.getLast?_append]
  · rw [size_linkBefore, size_place, h.size]
    simp
    omega

/-! ## Removal -/

theorem live?_eq_some_iff {s : Slab α} {h : Handle} {c : Cell α} :
    s.live? h = some c ↔
      s.cells[h.index]? = some c ∧ c.generation = h.generation ∧ c.element?.isSome := by
  simp [live?, Option.filter_eq_some_iff]

/-- A live handle stands for a cell of the order. -/
theorem Ordered.mem_of_live? {s : Slab α} {order : List Nat} (h : s.Ordered order) {hd : Handle}
    {c : Cell α} (live : s.live? hd = some c) : hd.index ∈ order := by
  obtain ⟨hc, -, he⟩ := live?_eq_some_iff.1 live
  have lt : hd.index < s.cells.size := by
    have := Array.getElem?_eq_some_iff.1 hc
    exact this.1
  rcases List.mem_append.1 ((h.mem_iff _).2 lt) with hm | hm
  · exact hm
  · rw [h.vacant _ hm c hc] at he
    simp at he

theorem cells_release (s : Slab α) (i j : Nat) : (s.release i).cells[j]? =
    s.cells[j]?.map fun c => if i = j then ⟨none, c.emptied + 1, none, none⟩ else c := by
  simp only [release, getElem?_modifyCell]
  split <;> simp

theorem cellCount_release (s : Slab α) (i : Nat) : (s.release i).cells.size = s.cells.size := by
  simp [release, modifyCell]

theorem cellCount_setNext (s : Slab α) (i? n? : Option Nat) :
    (s.setNext i? n?).cells.size = s.cells.size := by
  cases i? <;> simp [setNext, modifyCell]

theorem cellCount_setPrev (s : Slab α) (i? p? : Option Nat) :
    (s.setPrev i? p?).cells.size = s.cells.size := by
  cases i? <;> simp [setPrev, modifyCell]

/-- Unlinking a cell and releasing it takes it out of the order. -/
theorem Ordered.remove {s : Slab α} {a b : List Nat} {i : Nat} (h : s.Ordered (a ++ i :: b))
    {c : Cell α} (hc : s.cells[i]? = some c) :
    (((s.setNext c.prev? c.next?).setPrev c.next? c.prev?).release i).Ordered (a ++ b) := by
  obtain ⟨c', hc', -, hp, hq⟩ := h.linked a i b rfl
  obtain rfl : c = c' := by simpa [hc] using hc'
  have nodup := h.nodup
  constructor
  · simp only [release, free_setPrev, free_setNext]
    grind
  · intro j
    rw [cellCount_release, cellCount_setPrev, cellCount_setNext, ← h.mem_iff j]
    simp only [release, free_setPrev, free_setNext]
    grind
  · intro j hj d hd
    simp only [release, free_setPrev, free_setNext, List.mem_cons] at hj
    rw [cells_release, cells_setPrev, cells_setNext] at hd
    simp only [Option.map_map, Option.map_eq_some_iff, Function.comp_apply] at hd
    obtain ⟨e, he, rfl⟩ := hd
    rcases hj with rfl | hj
    · simp
    · split
      · rfl
      · exact h.vacant j hj e he
  · intro a' j b' split
    rw [cells_release, cells_setPrev, cells_setNext, hp, hq]
    have old : (a ++ b).Nodup ∧ i ∉ a ++ b := by grind
    have ne : i ≠ j := by
      rintro rfl
      exact old.2 (split ▸ by simp)
    simp only [if_neg ne]
    rcases List.append_eq_append_iff.1 split with ⟨m, rfl, hm⟩ | ⟨m, rfl, hm⟩
    · obtain ⟨d, hd, he, hdp, hdq⟩ := h.linked (a ++ i :: m) j b' (by simp [hm])
      rw [hd, Option.map_some, Option.map_some, Option.map_some]
      refine ⟨_, rfl, he, ?_, ?_⟩
      · cases m with
        | nil => simp [hm]
        | cons k m =>
          have : b.head? ≠ some j := fun e => by
            simp [hm] at e
            grind
          simp only [if_neg this, hdp]
          simp [List.getLast?_append]
      · have : a.getLast? ≠ some j := fun e => by
          have := List.mem_of_getLast? e
          grind
        simp [this, hdq]
    · cases m with
      | nil =>
        simp only [List.nil_append] at hm
        obtain ⟨d, hd, he, hdp, hdq⟩ := h.linked (a' ++ [i]) j b' (by simp [hm])
        rw [hd, Option.map_some, Option.map_some, Option.map_some]
        refine ⟨_, rfl, he, ?_, ?_⟩
        · simp [← hm]
        · have : (a' ++ ([] : List Nat)).getLast? ≠ some j := fun e => by
            have := List.mem_of_getLast? e
            grind
          simp only [if_neg this, hdq]
      | cons k m =>
        simp only [List.cons_append, List.cons.injEq] at hm
        obtain ⟨rfl, rfl⟩ := hm
        obtain ⟨d, hd, he, hdp, hdq⟩ := h.linked a' j (m ++ i :: b) (by simp)
        rw [hd, Option.map_some, Option.map_some, Option.map_some]
        refine ⟨_, rfl, he, ?_, ?_⟩
        · have : b.head? ≠ some j := fun e => by
            have := List.mem_of_mem_head? e
            grind
          simp [this, hdp]
        · cases m with
          | nil => simp
          | cons k m =>
            have : (a' ++ j :: k :: m).getLast? ≠ some j := fun e => by
              have last : (k :: m).getLast? = some j := by
                simpa [List.getLast?_append, List.getLast?_cons_cons] using e
              have := List.mem_of_getLast? last
              grind
            simp only [if_neg this, hdq]
            simp
  · simp only [release, head?_modifyCell, head?_setPrev, head?_setNext, h.head, hp, hq]
    cases a <;> simp
  · simp only [release, tail?_modifyCell, tail?_setPrev, tail?_setNext, h.tail, hp, hq]
    cases b <;> simp [List.getLast?_append]
  · simp only [release, size_setPrev, size_setNext, h.size]
    simp

end Slab

end Dataflow
