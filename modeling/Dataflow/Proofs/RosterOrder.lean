import Dataflow.Roster
import Mathlib.Data.List.Nodup
import Mathlib.Tactic.SplitIfs

/-!
# Rosters as lists

Seen through `toList`, a roster is a list without repetition: inserting a node puts it right before
another one or at the end, and removing a node deletes it.
-/

namespace Dataflow

namespace Roster

theorem nodup (r : Roster) : r.toList.Nodup := by
  have handles := r.wf.nodup_handle
  rw [toList_eq]
  rw [List.Nodup, List.pairwise_map] at handles ⊢
  refine handles.imp_of_mem fun {a b} ha hb ne same => ne ?_
  have ha := (r.position_iff a.2 a.1).2 ha
  have hb := (r.position_iff b.2 b.1).2 hb
  rw [same, hb] at ha
  exact (Option.some.inj ha).symm

theorem size_eq (r : Roster) : r.size = r.toList.length := by
  rw [size, r.wf.size_eq, toList_eq, List.length_map]

/-- A listed node has an entry at its place, whose handle is the position of the node. -/
theorem exists_entry {r : Roster} {n : NodeId} {a b : List NodeId} (at_ : r.toList = a ++ n :: b) :
    ∃ l h k, r.order.entries = l ++ (h, n) :: k ∧ l.map (·.2) = a ∧ k.map (·.2) = b ∧
      r.positions[n]? = some h := by
  rw [toList_eq, List.map_eq_append_iff] at at_
  obtain ⟨l, k', entries, rfl, hk⟩ := at_
  obtain ⟨⟨h, _⟩, k, rfl, rfl, rfl⟩ := List.map_eq_cons_iff.1 hk
  exact ⟨l, h, k, entries, rfl, rfl, (r.position_iff _ h).2 (by simp [entries])⟩

/-- A node has no position exactly if it is not listed. -/
theorem position_eq_none_iff {r : Roster} {n : NodeId} : r.positions[n]? = none ↔ n ∉ r.toList := by
  rw [← r.contains_iff, contains_iff_isSome, not_exists, Option.eq_none_iff_forall_ne_some]

/-- Removing a node deletes it, if it is listed, and leaves the others in order. -/
theorem toList_remove? (r : Roster) (n : NodeId) :
    ((r.remove? n).getD r).toList = r.toList.filter (· ≠ n) := by
  unfold remove?
  split
  · rename_i absent
    rw [Option.getD_none, eq_comm, List.filter_eq_self]
    intro m hm
    obtain ⟨e, he, rfl⟩ := List.mem_map.1 hm
    have listed := (r.position_iff e.2 e.1).2 he
    rw [decide_eq_true_eq]
    rintro rfl
    rw [absent] at listed
    cases listed
  · rename_i h listed
    rw [Option.getD_some, toList_eq, toList_eq, r.wf.entries_remove, List.filter_map]
    congr 1
    refine List.filter_congr fun e he => ?_
    have position := (r.position_iff e.2 e.1).2 he
    have entry := (r.position_iff n h).1 listed
    rw [Function.comp_apply, decide_eq_decide, not_iff_not]
    constructor
    · rintro same
      have get := r.wf.get?_eq_some_iff.2 entry
      rw [← same, r.wf.get?_eq_some_iff.2 he] at get
      exact Option.some.inj get
    · rintro same
      rw [same, listed] at position
      exact (Option.some.inj position).symm

/-- A node that is not listed cannot be removed. -/
theorem remove?_of_notMem {r : Roster} {n : NodeId} (absent : n ∉ r.toList) : r.remove? n = none := by
  rw [← position_eq_none_iff] at absent
  unfold remove?
  split
  · rfl
  · rename_i listed
    rw [absent] at listed
    cases listed

/-- A listed node is removed from its place. -/
theorem remove?_of_mem {r : Roster} {n : NodeId} {l k : List NodeId} (at_ : r.toList = l ++ n :: k) :
    ∃ r', r.remove? n = some r' ∧ r'.toList = l ++ k := by
  obtain ⟨-, h, -, -, -, -, position⟩ := exists_entry at_
  have removed := toList_remove? r n
  obtain ⟨r', hr'⟩ : ∃ r', r.remove? n = some r' := by
    unfold remove?
    split
    · rename_i absent
      rw [position] at absent
      cases absent
    · exact ⟨_, rfl⟩
  refine ⟨r', hr', ?_⟩
  rw [hr', Option.getD_some, at_] at removed
  have nodup := r.nodup
  rw [at_, List.nodup_middle, List.nodup_cons] at nodup
  rw [removed, List.filter_append, List.filter_cons_of_neg (by simp), ← List.filter_append,
    List.filter_eq_self]
  exact fun m hm => decide_eq_true fun same => nodup.1 (same ▸ hm)

theorem insertAt?_eq {r : Roster} {n : NodeId} (fresh : n ∉ r.toList) {anchor? : Option Handle}
    {e : Handle × Slab NodeId} (inserted : r.order.insertBefore anchor? n = .ok e) :
    ∃ r', r.insertAt? n fresh anchor? = some r' ∧ r'.order = e.2 := by
  unfold insertAt?
  split
  · rename_i failed
    rw [inserted] at failed
    cases failed
  · rename_i succeeded
    rw [inserted, Except.ok.injEq] at succeeded
    exact ⟨_, rfl, (congrArg Prod.snd succeeded).symm⟩

/-- Without an anchor a new node is listed last. -/
theorem insert?_none {r : Roster} {n : NodeId} (fresh : n ∉ r.toList) :
    ∃ r', r.insert? n none = some r' ∧ r'.toList = r.toList ++ [n] := by
  have inserted : r.order.insertBefore none n = .ok (r.order.push n) := rfl
  obtain ⟨r', hr', order⟩ := insertAt?_eq fresh inserted
  refine ⟨r', ?_, ?_⟩
  · rw [insert?, dif_neg fun listed => fresh (r.contains_iff.1 listed)]
    exact hr'
  · rw [toList_eq, order, r.wf.entries_push, List.map_append]
    rfl

/-- With a listed anchor a new node is listed right before it. -/
theorem insert?_some {r : Roster} {n b : NodeId} (fresh : n ∉ r.toList) {l k : List NodeId}
    (at_ : r.toList = l ++ b :: k) :
    ∃ r', r.insert? n (some b) = some r' ∧ r'.toList = l ++ n :: b :: k := by
  obtain ⟨l, h, k, entries, rfl, rfl, position⟩ := exists_entry at_
  obtain ⟨order, inserted, -, entries'⟩ := r.wf.entries_insertBefore entries n
  obtain ⟨r', hr', order_eq⟩ := insertAt?_eq fresh inserted
  refine ⟨r', ?_, ?_⟩
  · rw [insert?, dif_neg fun listed => fresh (r.contains_iff.1 listed)]
    dsimp only
    rw [position, Option.bind_some, hr']
  · rw [toList_eq, order_eq, entries']
    simp

/-- No node is listed before one that is not listed. -/
theorem insert?_of_unlisted {r : Roster} {n b : NodeId} (fresh : n ∉ r.toList) (absent : b ∉ r.toList) :
    r.insert? n (some b) = none := by
  rw [← position_eq_none_iff] at absent
  rw [insert?, dif_neg fun listed => fresh (r.contains_iff.1 listed)]
  simp only [absent, Option.bind_none]

/-- A new node is listed in front of what the anchor leads. -/
theorem insert?_head? {r : Roster} {n : NodeId} {a c : List NodeId} (at_ : r.toList = a ++ c)
    (fresh : n ∉ a ++ c) :
    ∃ r', r.insert? n c.head? = some r' ∧ r'.toList = a ++ n :: c := by
  rw [← at_] at fresh
  cases c with
  | nil =>
    rw [List.append_nil] at at_
    rw [← at_]
    exact insert?_none fresh
  | cons b c => exact insert?_some fresh at_

/-- New nodes that are inserted one after the other at one anchor are listed in their order. -/
theorem toList_foldl_insert? {nodes : List NodeId} (nodup : nodes.Nodup) {r : Roster}
    {a c : List NodeId} (at_ : r.toList = a ++ c) (fresh : ∀ n ∈ nodes, n ∉ a ++ c) :
    (nodes.foldl (fun r n => (r.insert? n c.head?).getD r) r).toList = a ++ nodes ++ c := by
  induction nodes generalizing r a with
  | nil => simpa using at_
  | cons n nodes ih =>
    rw [List.nodup_cons] at nodup
    rw [List.forall_mem_cons] at fresh
    obtain ⟨r', inserted, order⟩ := insert?_head? at_ fresh.1
    rw [List.append_cons a n c] at order
    have rest := ih nodup.2 order fun m hm => by
      have ne : m ≠ n := fun same => nodup.1 (same ▸ hm)
      have := fresh.2 m hm
      simp_all
    rw [List.foldl_cons, inserted, Option.getD_some, rest]
    simp

/-- Nodes that are removed one after the other are deleted. -/
theorem toList_foldl_remove? (r : Roster) (nodes : List NodeId) :
    (nodes.foldl (fun r n => (r.remove? n).getD r) r).toList = r.toList.filter (· ∉ nodes) := by
  induction nodes generalizing r with
  | nil => simp
  | cons n nodes ih =>
    rw [List.foldl_cons, ih, toList_remove?, List.filter_filter]
    refine List.filter_congr fun m _ => ?_
    by_cases same : m = n <;> simp [same]

/-- A new node is listed beside those listed before. -/
theorem mem_insert? {r : Roster} {n : NodeId} (fresh : n ∉ r.toList) {before? : Option NodeId}
    (anchor : ∀ b ∈ before?, b ∈ r.toList) :
    ∃ r', r.insert? n before? = some r' ∧ ∀ m, m ∈ r'.toList ↔ m = n ∨ m ∈ r.toList := by
  cases before? with
  | none =>
    obtain ⟨r', hr', order⟩ := insert?_none fresh
    exact ⟨r', hr', fun m => by simp [order, or_comm]⟩
  | some b =>
    obtain ⟨l, k, at_⟩ := List.append_of_mem (anchor b rfl)
    obtain ⟨r', hr', order⟩ := insert?_some fresh at_
    exact ⟨r', hr', fun m => by simp [order, at_, or_left_comm]⟩

/-- A node that is listed already is refused. -/
theorem insert?_of_mem {r : Roster} {n : NodeId} (listed : n ∈ r.toList) (before? : Option NodeId) :
    r.insert? n before? = none := by
  rw [insert?, dif_pos (r.contains_iff.2 listed)]

/-! ## Ranges -/

/-- From an entry on, a range goes up to the entry of the position that ends it. -/
theorem rangeFrom_eq_some_iff (r : Roster) {stop : Handle} {l k : List (Handle × NodeId)}
    (at_ : r.order.entries = l ++ k) {bound : Nat} (enough : k.length ≤ bound)
    {range : List NodeId} :
    r.rangeFrom stop bound (k.head?.map (·.1)) = some range ↔
      ∃ es n rest, k = es ++ (stop, n) :: rest ∧ stop ∉ es.map (·.1) ∧ es.map (·.2) ++ [n] = range := by
  induction k generalizing l bound range with
  | nil => cases bound <;> simp [rangeFrom]
  | cons e k ih =>
    obtain ⟨h, m⟩ := e
    obtain ⟨bound, rfl⟩ : ∃ b, bound = b + 1 := ⟨bound - 1, by simp at enough; omega⟩
    have get : r.order.get? h = some m := r.wf.get?_eq_some_iff.2 (by simp [at_])
    have next := r.wf.next?_eq at_
    have step := @ih (l ++ [(h, m)]) (by simp [at_]) bound (by simpa using enough)
    simp only [List.head?_cons, Option.map_some, rangeFrom, get, Option.bind_eq_bind,
      Option.bind_some, next]
    split_ifs with here
    · subst here
      constructor
      · intro found
        exact ⟨[], m, k, rfl, List.not_mem_nil, Option.some.inj found⟩
      · rintro ⟨es, n, rest, split, passed, rfl⟩
        -- the walk stops here, so no entry comes before
        cases es with
        | nil =>
          obtain ⟨rfl, rfl⟩ : m = n ∧ k = rest := by simpa using split
          rfl
        | cons e es =>
          obtain ⟨rfl, -⟩ := List.cons.inj split
          exact absurd (List.mem_cons_self ..) passed
    · constructor
      · intro found
        obtain ⟨tail, htail, found⟩ := Option.bind_eq_some_iff.1 found
        obtain ⟨es, n, rest, rfl, passed, rfl⟩ := step.1 htail
        refine ⟨(h, m) :: es, n, rest, rfl, ?_, Option.some.inj found⟩
        rw [List.map_cons, List.mem_cons, not_or]
        exact ⟨fun same => here same.symm, passed⟩
      · rintro ⟨es, n, rest, split, passed, rfl⟩
        cases es with
        | nil => exact absurd (congrArg Prod.fst (List.cons.inj split).1) here
        | cons e es =>
          obtain ⟨rfl, rfl⟩ := List.cons.inj split
          rw [List.map_cons, List.mem_cons, not_or] at passed
          rw [step.2 ⟨es, n, rest, rfl, passed.2, rfl⟩]
          rfl

/-- A range is the stretch of the list from its first to its last node. -/
theorem range?_eq_some_iff (r : Roster) {first last : NodeId} {range : List NodeId} :
    r.range? first last = some range ↔ ∃ front back, r.toList = front ++ range ++ back ∧
      range.head? = some first ∧ range.getLast? = some last := by
  have size : r.size = r.order.entries.length := r.wf.size_eq
  constructor
  · intro found
    simp only [range?, Option.bind_eq_bind, Option.bind_eq_some_iff] at found
    obtain ⟨start, hstart, stop, hstop, found⟩ := found
    obtain ⟨l, k, at_⟩ := List.append_of_mem ((r.position_iff first start).1 hstart)
    obtain ⟨es, n, rest, split, -, rfl⟩ :=
      (r.rangeFrom_eq_some_iff at_ (by simp [size, at_])).1 found
    have listed : (stop, n) ∈ r.order.entries := by simp [at_, split]
    obtain rfl : n = last := Option.some.inj <| (r.wf.get?_eq_some_iff.2 listed).symm.trans
      (r.wf.get?_eq_some_iff.2 ((r.position_iff last stop).1 hstop))
    refine ⟨l.map (·.2), rest.map (·.2), by simp [toList_eq, at_, split], ?_, by simp⟩
    have heads := congrArg (fun k => (k.map (·.2)).head?) split
    cases es <;> simpa using heads.symm
  · rintro ⟨front, back, split, head, tail⟩
    rw [toList_eq] at split
    obtain ⟨l', rest, entries, hl, rfl⟩ := List.map_eq_append_iff.1 split
    obtain ⟨l, k, rfl, rfl, rfl⟩ := List.map_eq_append_iff.1 hl
    rw [List.head?_map, Option.map_eq_some_iff] at head
    obtain ⟨⟨start, _⟩, head, rfl⟩ := head
    rw [List.getLast?_map, Option.map_eq_some_iff] at tail
    obtain ⟨⟨stop, last⟩, tail, rfl⟩ := tail
    obtain ⟨es, rfl⟩ := List.getLast?_eq_some_iff.1 tail
    have listed {e : Handle × NodeId} (he : e ∈ es ++ [(stop, last)]) : e ∈ r.order.entries := by
      rw [entries]
      exact List.mem_append_left _ (List.mem_append_right _ he)
    have hstart := (r.position_iff _ _).2 (listed (List.mem_of_head? head))
    have hstop := (r.position_iff _ _).2 (listed (List.mem_of_getLast? tail))
    have passed : stop ∉ es.map (·.1) := by
      have nodup := r.wf.nodup_handle
      rw [entries] at nodup
      simp only [List.map_append, List.map_cons, List.map_nil, List.nodup_append] at nodup
      exact fun h => nodup.1.2.1.2.2 _ h _ (List.mem_singleton_self _) rfl
    have at_ : r.order.entries = l ++ (es ++ (stop, last) :: rest) := by simp [entries]
    have enough : (es ++ (stop, last) :: rest).length ≤ r.size := by rw [size, at_]; simp
    have found := (r.rangeFrom_eq_some_iff at_ enough).2 ⟨es, last, rest, rfl, passed, rfl⟩
    have start' : (es ++ (stop, last) :: rest).head?.map (·.1) = some start := by
      cases es <;> simp_all
    rw [start'] at found
    simp only [range?, Option.bind_eq_bind, hstart, hstop, Option.bind_some, found,
      List.map_append, List.map_cons, List.map_nil]

/-- A range consists of listed nodes. -/
theorem mem_of_mem_range? {r : Roster} {first last : NodeId} {range : List NodeId}
    (found : r.range? first last = some range) {n : NodeId} (hn : n ∈ range) : n ∈ r.toList := by
  obtain ⟨front, back, split, -⟩ := r.range?_eq_some_iff.1 found
  rw [split]
  exact List.mem_append_left _ (List.mem_append_right _ hn)

end Roster

end Dataflow
