import Dataflow.Proofs.Splice

/-!
# Rosters as sequences

A roster keeps its nodes twice, in the order of a slab and in a map of positions. From every side it
shows one list without repetition (`Roster.Shows`): each listed node has the position of its own entry,
so whatever is looked up by position is found there, also when nodes leave, cells are used again and
nodes come back. Inserting and removing change the list as `Effect` says, and a refused change leaves
the roster as it was (`Roster.run_refines_distinct_list`).
-/

namespace Dataflow

namespace Roster

variable {r : Roster} {n first last : NodeId}

/-! ## Looking up -/

/-- The elements of listed handles are the nodes listed with them. -/
theorem bind_get? (r : Roster) {e? : Option (Handle × NodeId)}
    (listed : ∀ e ∈ e?, e ∈ r.order.entries) : (e?.map (·.1)).bind r.order.get? = e?.map (·.2) := by
  cases e? with
  | none => rfl
  | some e => exact r.wf.get?_eq_some_iff.2 (listed e rfl)

theorem first?_eq (r : Roster) : r.first? = r.toList.head? := by
  rw [first?, r.wf.first?_eq, r.bind_get? fun _ => List.mem_of_mem_head?, toList_eq, List.head?_map]

theorem last?_eq (r : Roster) : r.last? = r.toList.getLast? := by
  rw [last?, r.wf.last?_eq, r.bind_get? fun _ => List.mem_of_getLast?, toList_eq, List.getLast?_map]

/-- After a listed node comes the next one in the list. -/
theorem next?_eq {a b : List NodeId} (at_ : r.toList = a ++ n :: b) : r.next? n = b.head? := by
  obtain ⟨l, h, k, entries, -, rfl, position⟩ := exists_entry at_
  have next : (k.head?.map (·.1)).bind r.order.get? = k.head?.map (·.2) :=
    r.bind_get? fun e he => by simp [entries, List.mem_of_mem_head? he]
  rw [List.head?_map, ← next, ← r.wf.next?_eq entries]
  simp only [next?, position, Option.bind_eq_bind, Option.bind_some]

/-- Before a listed node comes the previous one in the list. -/
theorem prev?_eq {a b : List NodeId} (at_ : r.toList = a ++ n :: b) : r.prev? n = a.getLast? := by
  obtain ⟨l, h, k, entries, rfl, -, position⟩ := exists_entry at_
  have prev : (l.getLast?.map (·.1)).bind r.order.get? = l.getLast?.map (·.2) :=
    r.bind_get? fun e he => by simp [entries, List.mem_of_getLast? he]
  rw [List.getLast?_map, ← prev, ← r.wf.prev?_eq entries]
  simp only [prev?, position, Option.bind_eq_bind, Option.bind_some]

/-- A node that is not listed has no neighbours. -/
theorem neighbours_of_notMem (absent : n ∉ r.toList) : r.next? n = none ∧ r.prev? n = none := by
  rw [← position_eq_none_iff] at absent
  simp only [next?, prev?, absent]
  exact ⟨rfl, rfl⟩

/-- The position of a listed node is live and holds the node. -/
theorem live_position {h : Handle} (position : r.positions[n]? = some h) :
    r.order.contains h ∧ (r.order.remove h).1 = some n := by
  have held := r.wf.get?_eq_some_iff.2 ((r.position_iff n h).1 position)
  rw [Slab.contains_eq_isSome_get?, Slab.fst_remove, held]
  exact ⟨rfl, rfl⟩

/-! ## Segments -/

/-- The segment of a list between two of its nodes, unless they come in the other order. -/
def segment? (l : List NodeId) (first last : NodeId) : Option (List NodeId) :=
  if first ∈ l ∧ last ∈ l ∧ l.idxOf first ≤ l.idxOf last then
    some ((l.take (l.idxOf last + 1)).drop (l.idxOf first))
  else none

/-- A segment is a stretch of the list with the two nodes at its ends. -/
theorem segment?_eq_some_iff {l : List NodeId} (nodup : l.Nodup) {segment : List NodeId} :
    segment? l first last = some segment ↔ ∃ front back, l = front ++ segment ++ back ∧
      segment.head? = some first ∧ segment.getLast? = some last := by
  have cut {front range back : List NodeId} (split : l = front ++ range ++ back)
      (head : range.head? = some first) (tail : range.getLast? = some last) :
      (l.take (l.idxOf last + 1)).drop (l.idxOf first) = range := by
    subst split
    rw [idxOf_getLast nodup tail, idxOf_head nodup head, ← List.length_append, List.take_left,
      List.drop_left]
  rw [segment?]
  split_ifs with found
  · obtain ⟨range, front, back, split, head, tail⟩ := (exists_stretch_iff nodup).2 found
    rw [Option.some.injEq, cut split head tail]
    constructor
    · rintro rfl
      exact ⟨front, back, split, head, tail⟩
    · rintro ⟨front, back, split', head', tail'⟩
      exact (cut split head tail).symm.trans (cut split' head' tail')
  · rw [false_iff]
    exact fun ⟨front, back, stretch⟩ =>
      found ((exists_stretch_iff nodup).1 ⟨segment, front, back, stretch⟩)

theorem range?_eq (r : Roster) (first last : NodeId) :
    r.range? first last = segment? r.toList first last :=
  Option.ext fun _ => r.range?_eq_some_iff.trans (segment?_eq_some_iff r.nodup).symm

/-- The walk along a range ends by itself: it takes no more steps than there are nodes. -/
theorem rangeFrom_eq_range? {start stop : Handle} (hstart : r.positions[first]? = some start)
    (hstop : r.positions[last]? = some stop) {bound : Nat} (fits : r.toList.length ≤ bound) :
    r.rangeFrom stop bound (some start) = r.range? first last := by
  obtain ⟨l, k, at_⟩ := List.append_of_mem ((r.position_iff first start).1 hstart)
  have length : (r.order.entries).length = r.toList.length := by rw [toList_eq, List.length_map]
  have enough : ((start, first) :: k).length ≤ r.toList.length := by
    rw [← length, at_, List.length_append]
    exact Nat.le_add_left ..
  refine Option.ext fun range => ?_
  simp only [range?, hstart, hstop, Option.bind_eq_bind, Option.bind_some]
  rw [r.size_eq]
  exact (r.rangeFrom_eq_some_iff at_ (enough.trans fits)).trans (r.rangeFrom_eq_some_iff at_ enough).symm

/-! ## What a roster shows -/

/-- From every side the roster shows the list `l`. Iterating and walking along a range end by
themselves, under any bound that is large enough. -/
structure Shows (r : Roster) (l : List NodeId) : Prop where
  distinct : l.Nodup
  toList : r.toList = l
  iterate : ∀ bound, l.length ≤ bound → (r.order.follow (·.next?) bound r.order.head?).map (·.2) = l
  size : r.size = l.length
  contains : ∀ {n}, r.contains n ↔ n ∈ l
  first : r.first? = l.head?
  last : r.last? = l.getLast?
  next : ∀ {a n b}, l = a ++ n :: b → r.next? n = b.head?
  prev : ∀ {a n b}, l = a ++ n :: b → r.prev? n = a.getLast?
  unlisted : ∀ {n}, n ∉ l → r.next? n = none ∧ r.prev? n = none
  position : ∀ {n h}, r.positions[n]? = some h →
    r.order.contains h ∧ (r.order.remove h).1 = some n
  range : ∀ first last, r.range? first last = segment? l first last
  walk : ∀ {first last start stop}, r.positions[first]? = some start → r.positions[last]? = some stop →
    ∀ bound, l.length ≤ bound → r.rangeFrom stop bound (some start) = segment? l first last

/-- A roster shows its nodes. -/
theorem shows (r : Roster) : r.Shows r.toList := by
  refine ⟨r.nodup, rfl, fun bound fits => ?_, r.size_eq, r.contains_iff, r.first?_eq, r.last?_eq,
    next?_eq, prev?_eq, neighbours_of_notMem, live_position, r.range?_eq,
    fun hstart hstop bound fits => ?_⟩
  · rw [r.wf.follow_next (r.size_eq.trans_le fits), toList_eq]
  · rw [rangeFrom_eq_range? hstart hstop fits, range?_eq]

/-! ## Runs -/

/-- A change of a roster. -/
inductive Command where
  | insert (n : NodeId) (before? : Option NodeId)
  | remove (n : NodeId)

/-- The node that is to be inserted. -/
def Command.inserted? : Command → Option NodeId
  | .insert n _ => some n
  | .remove _ => none

/-- The roster after a change, unless it is refused. -/
def perform? (r : Roster) : Command → Option Roster
  | .insert n before? => r.insert? n before?
  | .remove n => r.remove? n

/-- Carries out changes in turn; a refused one leaves the roster as it was. -/
def run (r : Roster) (commands : List Command) : Roster :=
  commands.foldl (fun r c => (r.perform? c).getD r) r

/-- What a change does to a list of nodes, and whether it succeeds. -/
inductive Effect : List NodeId → Command → Bool → List NodeId → Prop
  | append {l n} (fresh : n ∉ l) : Effect l (.insert n none) true (l ++ [n])
  | insert {a b c n} (fresh : n ∉ a ++ b :: c) :
    Effect (a ++ b :: c) (.insert n (some b)) true (a ++ n :: b :: c)
  | refuse {l b n} (unlisted : b ∉ l) : Effect l (.insert n (some b)) false l
  | delete {a c n} : Effect (a ++ n :: c) (.remove n) true (a ++ c)
  | keep {l n} (unlisted : n ∉ l) : Effect l (.remove n) false l

/-- A change of a roster does to its nodes what it does to a plain list. -/
theorem effect (r : Roster) {c : Command} (fresh : ∀ n ∈ c.inserted?, r.contains n = false) :
    Effect r.toList c (r.perform? c).isSome ((r.perform? c).getD r).toList := by
  cases c with
  | insert n before? =>
    have absent : n ∉ r.toList := by
      rw [← r.contains_iff, fresh n rfl]
      exact Bool.false_ne_true
    cases before? with
    | none =>
      obtain ⟨r', inserted, order⟩ := insert?_none absent
      rw [perform?, inserted, Option.getD_some, order]
      exact .append absent
    | some b =>
      by_cases anchor : b ∈ r.toList
      · obtain ⟨a, c, at_⟩ := List.append_of_mem anchor
        obtain ⟨r', inserted, order⟩ := insert?_some absent at_
        rw [perform?, inserted, Option.getD_some, order, at_]
        exact .insert (at_ ▸ absent)
      · rw [perform?, insert?_of_unlisted absent anchor]
        exact .refuse anchor
  | remove n =>
    by_cases listed : n ∈ r.toList
    · obtain ⟨a, c, at_⟩ := List.append_of_mem listed
      obtain ⟨r', removed, order⟩ := remove?_of_mem at_
      rw [perform?, removed, Option.getD_some, order, at_]
      exact .delete
    · rw [perform?, remove?_of_notMem listed]
      exact .keep listed

/-- Every run of changes of the empty roster, in which no listed node is inserted, is matched by a run on
a plain list: each change succeeds or is refused and changes the list as `Effect` says, the roster shows
the list at every time, and a refused change leaves the roster as it was. -/
theorem run_refines_distinct_list (commands : List Command)
    (fresh : ∀ i < commands.length, ∀ n ∈ commands[i]?.bind Command.inserted?,
      (empty.run (commands.take i)).contains n = false) :
    ∃ seq : Nat → List NodeId, seq 0 = [] ∧
      (∀ i ≤ commands.length, (empty.run (commands.take i)).Shows (seq i)) ∧
      ∀ i c, commands[i]? = some c →
        Effect (seq i) c ((empty.run (commands.take i)).perform? c).isSome (seq (i + 1)) ∧
        ((empty.run (commands.take i)).perform? c = none →
          empty.run (commands.take (i + 1)) = empty.run (commands.take i)) := by
  refine ⟨fun i => (empty.run (commands.take i)).toList, rfl, fun i _ => shows _, fun i c here => ?_⟩
  have next : empty.run (commands.take (i + 1)) =
      ((empty.run (commands.take i)).perform? c).getD (empty.run (commands.take i)) := by
    rw [List.take_add_one, here, run, List.foldl_append]
    rfl
  refine ⟨?_, fun refused => by rw [next, refused, Option.getD_none]⟩
  simp only [next]
  refine effect _ fun n inserted => fresh i (List.getElem?_eq_some_iff.1 here).1 n ?_
  rwa [here, Option.bind_some]

/-- A node that has left comes back behind the others, in a cell that was used before. -/
theorem run_refines_distinct_list_returned :
    let commands : List Command :=
      [.insert ⟨1⟩ none, .insert ⟨3⟩ none, .insert ⟨2⟩ (some ⟨3⟩), .insert ⟨4⟩ (some ⟨9⟩), .remove ⟨1⟩,
        .insert ⟨1⟩ none, .remove ⟨7⟩]
    (∀ i < commands.length, ∀ n ∈ commands[i]?.bind Command.inserted?,
        (empty.run (commands.take i)).contains n = false) ∧
      ∃ r, r = empty.run commands ∧ r.Shows [⟨2⟩, ⟨3⟩, ⟨1⟩] ∧
        r.range? ⟨2⟩ ⟨3⟩ = some [⟨2⟩, ⟨3⟩] ∧ r.range? ⟨1⟩ ⟨2⟩ = none := by
  intro commands
  have fresh : ∀ i < commands.length, ∀ n ∈ commands[i]?.bind Command.inserted?,
      (empty.run (commands.take i)).contains n = false := by decide +kernel
  obtain ⟨seq, -, shown, -⟩ := run_refines_distinct_list commands fresh
  have shows := shown commands.length (Nat.le_refl _)
  rw [List.take_length] at shows
  have order : (empty.run commands).toList = [⟨2⟩, ⟨3⟩, ⟨1⟩] := by decide +kernel
  rw [← shows.toList, order] at shows
  refine ⟨fresh, _, rfl, shows, (shows.range _ _).trans ?_, (shows.range _ _).trans ?_⟩
  · decide
  · decide

end Roster

end Dataflow
