import Dataflow.Slab.Order

/-!
# Slabs as lists

Seen through `entries`, the operations on a slab in order do what they do to a plain list:
`entries_push` appends, `entries_insertBefore` inserts before the anchor, and `entries_remove`
deletes. A handle resolves to exactly the element listed with it (`get?_eq_some_iff`), no two entries
share a handle, and every operation keeps the slab in order.
-/

namespace Dataflow

namespace Slab

variable {α : Type}

/-- What the cell `i` holds, with its handle. -/
def entryAt? (s : Slab α) (i : Nat) : Option (Handle × α) :=
  s.cells[i]?.bind fun c => c.element?.map fun x => (⟨i, c.generation⟩, x)

private theorem filterMap_congr {β γ : Type} {l : List β} {f g : β → Option γ}
    (h : ∀ i ∈ l, f i = g i) : l.filterMap f = l.filterMap g := by
  induction l with
  | nil => rfl
  | cons i l ih => simp [List.filterMap_cons, h i (by simp), ih fun j hj => h j (by simp [hj])]

theorem entryAt?_eq_some_iff {s : Slab α} {i : Nat} {hd : Handle} {x : α} :
    s.entryAt? i = some (hd, x) ↔ hd.index = i ∧ s.get? hd = some x := by
  obtain ⟨j, g⟩ := hd
  simp only [entryAt?, get?, Option.bind_eq_some_iff, Option.map_eq_some_iff, live?_eq_some_iff,
    Prod.mk.injEq, Handle.mk.injEq]
  constructor
  · rintro ⟨c, hc, y, hy, ⟨rfl, rfl⟩, rfl⟩
    exact ⟨rfl, c, ⟨hc, rfl, by simp [hy]⟩, hy⟩
  · rintro ⟨rfl, c, ⟨hc, rfl, -⟩, hy⟩
    exact ⟨c, hc, x, hy, ⟨rfl, rfl⟩, rfl⟩

theorem Ordered.exists_entry {s : Slab α} {order : List Nat} (h : s.Ordered order) {i : Nat}
    (hi : i ∈ order) : ∃ e, s.entryAt? i = some e := by
  obtain ⟨a, b, rfl⟩ := List.append_of_mem hi
  obtain ⟨c, hc, he, -, -⟩ := h.linked a i b rfl
  obtain ⟨x, hx⟩ := Option.isSome_iff_exists.1 he
  exact ⟨(⟨i, c.generation⟩, x), by simp [entryAt?, hc, hx]⟩

theorem Ordered.follow_next {s : Slab α} {a b : List Nat} (h : s.Ordered (a ++ b)) {k : Nat}
    (fits : b.length ≤ k) : s.follow (·.next?) k b.head? = b.filterMap s.entryAt? := by
  induction b generalizing a k with
  | nil => cases k <;> rfl
  | cons i b ih =>
    obtain ⟨k, rfl⟩ := Nat.exists_eq_add_of_lt fits
    obtain ⟨c, hc, he, -, hq⟩ := h.linked a i b rfl
    obtain ⟨x, hx⟩ := Option.isSome_iff_exists.1 he
    have rest := ih (a := a ++ [i]) (k := b.length + k) (by simpa using h) (by omega)
    have here : s.entryAt? i = some (⟨i, c.generation⟩, x) := by simp [entryAt?, hc, hx]
    simp [follow, hc, hx, hq, rest, here]

theorem Ordered.follow_prev {s : Slab α} {a b : List Nat} (h : s.Ordered (a.reverse ++ b)) :
    s.follow (·.prev?) a.length a.head? = a.filterMap s.entryAt? := by
  induction a generalizing b with
  | nil => rfl
  | cons i a ih =>
    obtain ⟨c, hc, he, hp, -⟩ := h.linked a.reverse i b (by simp)
    obtain ⟨x, hx⟩ := Option.isSome_iff_exists.1 he
    have rest := ih (b := i :: b) (by simpa using h)
    have here : s.entryAt? i = some (⟨i, c.generation⟩, x) := by simp [entryAt?, hc, hx]
    rw [List.getLast?_reverse] at hp
    simp [follow, hc, hx, hp, rest, here]

theorem Ordered.entries_eq {s : Slab α} {order : List Nat} (h : s.Ordered order) :
    s.entries = order.filterMap s.entryAt? := by
  rw [entries, h.head, h.size]
  exact Ordered.follow_next (a := []) h (Nat.le_refl _)

/-- Iterating on from the first cell ends by itself with the last entry. -/
theorem Wf.follow_next {s : Slab α} (h : s.Wf) {bound : Nat} (fits : s.size ≤ bound) :
    s.follow (·.next?) bound s.head? = s.entries := by
  obtain ⟨order, h⟩ := h
  rw [h.size] at fits
  rw [h.entries_eq, h.head]
  exact Ordered.follow_next (a := []) h fits

/-- Walking backwards meets the same entries in the opposite order. -/
theorem Wf.entriesBack_eq {s : Slab α} (h : s.Wf) : s.entriesBack = s.entries.reverse := by
  obtain ⟨order, h⟩ := h
  have := Ordered.follow_prev (s := s) (a := order.reverse) (b := []) (by simpa using h)
  rw [List.length_reverse, List.head?_reverse, ← h.size, ← h.tail] at this
  rw [entriesBack, this, h.entries_eq, ← List.filterMap_reverse]

theorem Ordered.map_index {s : Slab α} {order : List Nat} (h : s.Ordered order) :
    s.entries.map (·.1.index) = order := by
  rw [h.entries_eq]
  have all : ∀ i ∈ order, ∃ e, s.entryAt? i = some e := fun i hi => h.exists_entry hi
  clear h
  induction order with
  | nil => rfl
  | cons i order ih =>
    obtain ⟨e, he⟩ := all i (by simp)
    have hi : e.1.index = i := (entryAt?_eq_some_iff.1 he).1
    simp [he, hi, ih fun j hj => all j (by simp [hj])]

theorem Wf.size_eq {s : Slab α} (h : s.Wf) : s.size = s.entries.length := by
  obtain ⟨order, h⟩ := h
  rw [h.size, ← h.map_index, List.length_map]

/-- Distinct entries lie in distinct cells. -/
theorem Wf.nodup_index {s : Slab α} (h : s.Wf) : (s.entries.map (·.1.index)).Nodup := by
  obtain ⟨order, h⟩ := h
  rw [h.map_index]
  exact (List.nodup_append.1 h.nodup).1

theorem Wf.nodup_handle {s : Slab α} (h : s.Wf) : (s.entries.map (·.1)).Nodup := by
  have nodup : ((s.entries.map (·.1)).map (·.index)).Nodup := by
    simpa [Function.comp_def] using h.nodup_index
  exact List.Pairwise.of_map _ (fun _ _ ne e => ne (congrArg _ e)) nodup

/-- A handle resolves to exactly the element listed with it. -/
theorem Wf.get?_eq_some_iff {s : Slab α} (h : s.Wf) {hd : Handle} {x : α} :
    s.get? hd = some x ↔ (hd, x) ∈ s.entries := by
  obtain ⟨order, h⟩ := h
  rw [h.entries_eq, List.mem_filterMap]
  constructor
  · intro hx
    obtain ⟨c, live, -⟩ := Option.bind_eq_some_iff.1 hx
    exact ⟨hd.index, h.mem_of_live? live, entryAt?_eq_some_iff.2 ⟨rfl, hx⟩⟩
  · rintro ⟨i, -, he⟩
    exact (entryAt?_eq_some_iff.1 he).2

theorem contains_eq_isSome_get? (s : Slab α) (hd : Handle) :
    s.contains hd = (s.get? hd).isSome := by
  simp only [contains, get?]
  cases live : s.live? hd with
  | none => rfl
  | some c => simp [(live?_eq_some_iff.1 live).2.2]

theorem Wf.contains_iff {s : Slab α} (h : s.Wf) {hd : Handle} :
    s.contains hd ↔ hd ∈ s.entries.map (·.1) := by
  rw [contains_eq_isSome_get?, Option.isSome_iff_exists]
  simp [h.get?_eq_some_iff]

theorem Wf.handleAt?_eq {s : Slab α} (h : s.Wf) {hd : Handle} {x : α}
    (listed : (hd, x) ∈ s.entries) : s.handleAt? hd.index = some hd := by
  obtain ⟨c, live, -⟩ := Option.bind_eq_some_iff.1 (h.get?_eq_some_iff.2 listed)
  obtain ⟨hc, generation, -⟩ := live?_eq_some_iff.1 live
  rw [handleAt?, hc, Option.map_some, generation]

/-- The entries before and after that of a live handle. -/
theorem Wf.exists_split {s : Slab α} (h : s.Wf) {hd : Handle} (live : s.contains hd) :
    ∃ l x r, s.entries = l ++ (hd, x) :: r := by
  obtain ⟨⟨_, x⟩, listed, rfl⟩ := List.mem_map.1 (h.contains_iff.1 live)
  obtain ⟨l, r, split⟩ := List.append_of_mem listed
  exact ⟨l, x, r, split⟩

/-- The cell of an entry is linked to those of the entries around it. -/
theorem Wf.exists_linked {s : Slab α} (h : s.Wf) {l r : List (Handle × α)} {hd : Handle} {x : α}
    (at_ : s.entries = l ++ (hd, x) :: r) :
    ∃ c, s.live? hd = some c ∧ c.prev? = l.getLast?.map (·.1.index) ∧
      c.next? = r.head?.map (·.1.index) := by
  have listed : (hd, x) ∈ s.entries := by simp [at_]
  obtain ⟨c, live, -⟩ := Option.bind_eq_some_iff.1 (h.get?_eq_some_iff.2 listed)
  obtain ⟨order, ordered⟩ := h
  have index := ordered.map_index
  rw [at_, List.map_append, List.map_cons] at index
  obtain ⟨c', hc', -, prev, next⟩ := ordered.linked _ _ _ index.symm
  obtain rfl := Option.some.inj ((live?_eq_some_iff.1 live).1.symm.trans hc')
  rw [List.getLast?_map] at prev
  rw [List.head?_map] at next
  exact ⟨c, live, prev, next⟩

/-- The handle of a cell that holds an entry is that of the entry. -/
theorem Wf.bind_handleAt? {s : Slab α} (h : s.Wf) {e? : Option (Handle × α)}
    (listed : ∀ e ∈ e?, e ∈ s.entries) :
    (e?.map (·.1.index)).bind s.handleAt? = e?.map (·.1) := by
  cases e? with
  | none => rfl
  | some e => exact h.handleAt?_eq (listed e rfl)

/-- After a listed handle comes that of the next entry. -/
theorem Wf.next?_eq {s : Slab α} (h : s.Wf) {l r : List (Handle × α)} {hd : Handle} {x : α}
    (at_ : s.entries = l ++ (hd, x) :: r) : s.next? hd = r.head?.map (·.1) := by
  obtain ⟨c, live, -, next⟩ := h.exists_linked at_
  rw [next?, live, Option.bind_some, next, h.bind_handleAt?]
  exact fun e he => by simp [at_, List.mem_of_mem_head? he]

/-- Before a listed handle comes that of the entry before. -/
theorem Wf.prev?_eq {s : Slab α} (h : s.Wf) {l r : List (Handle × α)} {hd : Handle} {x : α}
    (at_ : s.entries = l ++ (hd, x) :: r) : s.prev? hd = l.getLast?.map (·.1) := by
  obtain ⟨c, live, prev, -⟩ := h.exists_linked at_
  rw [prev?, live, Option.bind_some, prev, h.bind_handleAt?]
  exact fun e he => by simp [at_, List.mem_of_getLast? he]

theorem Wf.first?_eq {s : Slab α} (h : s.Wf) : s.first? = s.entries.head?.map (·.1) := by
  have first : s.head? = s.entries.head?.map (·.1.index) := by
    obtain ⟨order, ordered⟩ := h
    rw [ordered.head, ← ordered.map_index, List.head?_map]
  rw [first?, first, h.bind_handleAt? fun _ => List.mem_of_mem_head?]

theorem Wf.last?_eq {s : Slab α} (h : s.Wf) : s.last? = s.entries.getLast?.map (·.1) := by
  have last : s.tail? = s.entries.getLast?.map (·.1.index) := by
    obtain ⟨order, ordered⟩ := h
    rw [ordered.tail, ← ordered.map_index, List.getLast?_map]
  rw [last?, last, h.bind_handleAt? fun _ => List.mem_of_getLast?]

/-- The cells are those of the entries and the free ones. -/
theorem Wf.cells_perm {s : Slab α} (h : s.Wf) :
    (s.entries.map (·.1.index) ++ s.free).Perm (List.range s.cells.size) := by
  obtain ⟨order, h⟩ := h
  rw [h.map_index, List.perm_ext_iff_of_nodup h.nodup List.nodup_range]
  intro i
  rw [h.mem_iff, List.mem_range]

/-- The handle of the next element is not that of an entry. -/
theorem Wf.nextHandle_fresh {s : Slab α} (h : s.Wf) : s.nextHandle ∉ s.entries.map (·.1) := by
  intro listed
  obtain ⟨e, he, same⟩ := List.mem_map.1 listed
  obtain ⟨order, h⟩ := h
  refine h.nextIndex_notMem ?_
  rw [← h.map_index, ← same]
  exact List.mem_map_of_mem he

/-! ## The operations on the view -/

theorem entryAt?_linkBefore (s : Slab α) (i : Nat) (at? : Option Nat) (j : Nat) :
    (s.linkBefore i at?).entryAt? j = s.entryAt? j := by
  simp only [entryAt?, cells_linkBefore]
  cases s.cells[j]? <;> rfl

theorem entryAt?_place_of_ne (s : Slab α) (x : α) {j : Nat} (h : j ≠ s.nextHandle.index) :
    (s.place x).entryAt? j = s.entryAt? j := by
  simp only [entryAt?, cells_place_of_ne s x h]

theorem Ordered.entryAt?_place {s : Slab α} {order : List Nat} (h : s.Ordered order) (x : α) :
    (s.place x).entryAt? s.nextHandle.index = some (s.nextHandle, x) := by
  obtain ⟨c, placed, holds, same⟩ := h.cells_place x
  simp [entryAt?, placed, holds, same]

theorem Ordered.entries_insert {s : Slab α} {a b : List Nat} (h : s.Ordered (a ++ b)) (x : α) :
    ((s.place x).linkBefore s.nextHandle.index b.head?).entries =
      a.filterMap s.entryAt? ++ (s.nextHandle, x) :: b.filterMap s.entryAt? := by
  have fresh := h.nextIndex_notMem
  rw [(h.insert x).entries_eq]
  have same : ∀ l : List Nat, s.nextHandle.index ∉ l →
      l.filterMap ((s.place x).linkBefore s.nextHandle.index b.head?).entryAt? =
        l.filterMap s.entryAt? := by
    intro l hl
    apply filterMap_congr
    intro j hj
    rw [entryAt?_linkBefore, entryAt?_place_of_ne]
    rintro rfl
    exact hl hj
  rw [List.filterMap_append, List.filterMap_cons, entryAt?_linkBefore, h.entryAt?_place,
    same a (by grind), same b (by grind)]

/-- Appending an element appends its entry. -/
theorem Wf.entries_push {s : Slab α} (h : s.Wf) (x : α) :
    (s.push x).2.entries = s.entries ++ [(s.nextHandle, x)] := by
  obtain ⟨order, h⟩ := h
  have := Ordered.entries_insert (a := order) (b := []) (by simpa using h) x
  simpa [push, h.entries_eq] using this

theorem Wf.push {s : Slab α} (h : s.Wf) (x : α) : (s.push x).2.Wf := by
  obtain ⟨order, h⟩ := h
  exact ⟨_, Ordered.insert (a := order) (b := []) (by simpa using h) x⟩

/-- Inserting before a live anchor puts the entry right before that of the anchor. -/
theorem Wf.entries_insertBefore {s : Slab α} (h : s.Wf) {l r : List (Handle × α)}
    {anchor : Handle} {y : α} (at_ : s.entries = l ++ (anchor, y) :: r) (x : α) :
    ∃ s', s.insertBefore (some anchor) x = .ok (s.nextHandle, s') ∧ s'.Wf ∧
      s'.entries = l ++ (s.nextHandle, x) :: (anchor, y) :: r := by
  have live : s.contains anchor := h.contains_iff.2 (by simp [at_])
  obtain ⟨order, h⟩ := h
  refine ⟨_, by simp only [insertBefore, live, if_true]; rfl, ?_⟩
  have index := h.map_index
  rw [at_, List.map_append, List.map_cons] at index
  subst index
  have entries := h.entries_eq
  rw [List.filterMap_append, at_] at entries
  have length : ∀ k : List (Handle × α), (∀ e ∈ k, e ∈ s.entries) →
      (k.map (·.1.index)).filterMap s.entryAt? = k := by
    intro k hk
    rw [List.filterMap_map]
    conv => rhs; rw [← List.filterMap_some (l := k)]
    apply filterMap_congr
    intro e he
    exact entryAt?_eq_some_iff.2 ⟨rfl, (Wf.get?_eq_some_iff ⟨_, h⟩).2 (hk e he)⟩
  have inserted := h.entries_insert x
  simp only [List.head?_cons] at inserted
  refine ⟨⟨_, by simpa using h.insert x⟩, ?_⟩
  have rest := length ((anchor, y) :: r) (by simp [at_]; grind)
  rw [List.map_cons] at rest
  rw [inserted, length l (by simp [at_]; grind), rest]

theorem Wf.insertBefore {s : Slab α} (h : s.Wf) {anchor? : Option Handle} {x : α} {hd : Handle}
    {s' : Slab α} (inserted : s.insertBefore anchor? x = .ok (hd, s')) : s'.Wf := by
  cases anchor? with
  | none =>
    simp only [Slab.insertBefore, Except.ok.injEq] at inserted
    have := h.push x
    rwa [inserted] at this
  | some anchor =>
    have live : s.contains anchor := by
      simp only [Slab.insertBefore] at inserted
      split at inserted
      · assumption
      · cases inserted
    obtain ⟨l, y, r, split⟩ := h.exists_split live
    obtain ⟨s'', ok, wf, -⟩ := h.entries_insertBefore split x
    rw [ok] at inserted
    cases inserted
    exact wf

/-- However it is placed, an inserted element adds one entry. -/
theorem Wf.mem_entries_insertBefore {s : Slab α} (h : s.Wf) {anchor? : Option Handle} {x : α}
    {hd : Handle} {s' : Slab α} (inserted : s.insertBefore anchor? x = .ok (hd, s'))
    (e : Handle × α) : e ∈ s'.entries ↔ e = (hd, x) ∨ e ∈ s.entries := by
  cases anchor? with
  | none =>
    simp only [Slab.insertBefore, Except.ok.injEq, Prod.ext_iff] at inserted
    have := h.entries_push x
    rw [inserted.2] at this
    simp [this, ← inserted.1, Slab.push, or_comm]
  | some anchor =>
    have live : s.contains anchor := by
      simp only [Slab.insertBefore] at inserted
      split at inserted
      · assumption
      · cases inserted
    obtain ⟨l, y, r, split⟩ := h.exists_split live
    obtain ⟨s'', ok, -, entries⟩ := h.entries_insertBefore split x
    rw [ok] at inserted
    cases inserted
    rw [entries, split]
    simp
    grind

theorem remove_of_stale {s : Slab α} {hd : Handle} (h : s.contains hd = false) :
    s.remove hd = (none, s) := by
  simp only [contains, Option.isSome_eq_false_iff, Option.isNone_iff_eq_none] at h
  simp [remove, h]

theorem fst_remove (s : Slab α) (hd : Handle) : (s.remove hd).1 = s.get? hd := by
  simp only [remove, get?]
  cases s.live? hd <;> rfl

theorem entryAt?_unlink (s : Slab α) (i : Nat) (p? n? : Option Nat) {j : Nat} (h : i ≠ j) :
    (((s.setNext p? n?).setPrev n? p?).release i).entryAt? j = s.entryAt? j := by
  simp only [entryAt?, cells_release, cells_setPrev, cells_setNext, if_neg h]
  cases s.cells[j]? <;> rfl

/-- Removing a handle deletes its entry, if it has one, and nothing else. -/
theorem Wf.entries_remove {s : Slab α} (h : s.Wf) (hd : Handle) :
    (s.remove hd).2.entries = s.entries.filter (·.1 ≠ hd) := by
  cases live : s.live? hd with
  | none =>
    have stale : s.contains hd = false := by simp [contains, live]
    rw [remove_of_stale stale, eq_comm, List.filter_eq_self]
    intro e he
    simp only [ne_eq, decide_not, Bool.not_eq_eq_eq_not, Bool.not_true, decide_eq_false_iff_not]
    rintro rfl
    have := h.contains_iff.2 (List.mem_map_of_mem he)
    simp [stale] at this
  | some c =>
    have nodup := h.nodup_index
    obtain ⟨order, h⟩ := h
    obtain ⟨a, b, rfl⟩ := List.append_of_mem (h.mem_of_live? live)
    obtain ⟨hc, -, he⟩ := live?_eq_some_iff.1 live
    obtain ⟨x, hx⟩ := Option.isSome_iff_exists.1 he
    have here : s.entryAt? hd.index = some (hd, x) :=
      entryAt?_eq_some_iff.2 ⟨rfl, by simp [get?, live, hx]⟩
    have fresh : hd.index ∉ a ∧ hd.index ∉ b := by
      have := h.nodup
      grind
    have keep : ∀ l : List Nat, hd.index ∉ l →
        (l.filterMap s.entryAt?).filter (·.1 ≠ hd) = l.filterMap s.entryAt? := by
      intro l hl
      rw [List.filter_eq_self]
      intro e he
      obtain ⟨j, hj, hje⟩ := List.mem_filterMap.1 he
      have : e.1.index = j := (entryAt?_eq_some_iff.1 hje).1
      simp only [ne_eq, decide_not, Bool.not_eq_eq_eq_not, Bool.not_true, decide_eq_false_iff_not]
      rintro rfl
      exact hl (this ▸ hj)
    have same : ∀ l : List Nat, hd.index ∉ l →
        l.filterMap (s.remove hd).2.entryAt? = l.filterMap s.entryAt? := by
      intro l hl
      apply filterMap_congr
      intro j hj
      have ne : hd.index ≠ j := fun e => hl (e ▸ hj)
      simp only [Slab.remove, live]
      exact entryAt?_unlink s _ _ _ ne
    have removed : (s.remove hd).2.Ordered (a ++ b) := by
      simp only [Slab.remove, live]
      exact h.remove hc
    rw [removed.entries_eq, h.entries_eq, List.filterMap_append, List.filterMap_append,
      List.filter_append, List.filterMap_cons, here, List.filter_cons, same a fresh.1,
      same b fresh.2, keep a fresh.1, keep b fresh.2]
    simp

theorem Wf.remove {s : Slab α} (h : s.Wf) (hd : Handle) : (s.remove hd).2.Wf := by
  cases live : s.live? hd with
  | none => simpa [Slab.remove, live] using h
  | some c =>
    obtain ⟨order, h⟩ := h
    obtain ⟨a, b, rfl⟩ := List.append_of_mem (h.mem_of_live? live)
    simp only [Slab.remove, live]
    exact ⟨_, h.remove (live?_eq_some_iff.1 live).1⟩

end Slab

end Dataflow
