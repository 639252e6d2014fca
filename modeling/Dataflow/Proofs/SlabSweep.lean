import Dataflow.Proofs.SlabSequence
import Mathlib.Data.Nat.Find

/-!
# Changing a list while walking along it

A sweep walks along a slab from the first entry to the last. In each turn it reads the handle of the
next entry, then drops the element that it is at if it has no use for it, and appends elements if it
likes, for which the cell that it just emptied is used first. The handle that it has read is that of
the first entry still to come (`Underway`), and removing the entry before it does not touch it. So the
sweep visits what was there and what it appended, each entry once and in order, and leaves what it did
not drop (`Wf.exists_completes`).
-/

namespace Dataflow

namespace Slab

variable {α : Type}

/-- A walk along a list that changes it. -/
structure Sweep (α : Type) where
  slab : Slab α
  /-- Where the next turn is taken. -/
  cursor? : Option Handle
  visited : List (Handle × α)
  appended : List (Handle × α)

namespace Sweep

/-! ## The loop -/

/-- A sweep that is to start. -/
def start (s : Slab α) : Sweep α := ⟨s, s.first?, [], []⟩

/-- Visits the element of `h`, and removes it if it is to be dropped. -/
def visit (drop : α → Bool) (w : Sweep α) (h : Handle) : Sweep α :=
  match w.slab.get? h with
  | none => w
  | some x =>
    { w with
      slab := if drop x then (w.slab.remove h).2 else w.slab
      visited := w.visited ++ [(h, x)] }

/-- Reads the next handle, then visits the element at the cursor. -/
def pass (drop : α → Bool) (w : Sweep α) : Sweep α :=
  match w.cursor? with
  | none => w
  | some h => visit drop { w with cursor? := w.slab.next? h } h

/-- Appends `x`. -/
def append (w : Sweep α) (x : α) : Sweep α :=
  { w with slab := (w.slab.push x).2, appended := w.appended ++ [((w.slab.push x).1, x)] }

/-- One turn: the element at the cursor is visited, and unless the walk ends with it, the elements
`more` are appended, which may depend on all that has happened so far. -/
def turn (drop : α → Bool) (more : Sweep α → List α) (w : Sweep α) : Sweep α :=
  if (w.pass drop).cursor?.isSome then (more (w.pass drop)).foldl append (w.pass drop)
  else w.pass drop

/-- The sweep along `s` after `n` turns. -/
def after (drop : α → Bool) (more : Sweep α → List α) (s : Slab α) : Nat → Sweep α
  | 0 => start s
  | n + 1 => (after drop more s n).turn drop more

variable {drop : α → Bool} {more : Sweep α → List α} {s : Slab α} {w : Sweep α}

@[simp] theorem cursor?_foldl_append (xs : List α) (w : Sweep α) :
    (xs.foldl append w).cursor? = w.cursor? := by
  induction xs generalizing w with
  | nil => rfl
  | cons x xs ih => exact ih (w.append x)

@[simp] theorem visited_foldl_append (xs : List α) (w : Sweep α) :
    (xs.foldl append w).visited = w.visited := by
  induction xs generalizing w with
  | nil => rfl
  | cons x xs ih => exact ih (w.append x)

theorem map_appended_foldl_append (xs : List α) (w : Sweep α) :
    (xs.foldl append w).appended.map (·.2) = w.appended.map (·.2) ++ xs := by
  induction xs generalizing w with
  | nil => simp
  | cons x xs ih => simp [ih, append]

@[simp] theorem appended_pass (drop : α → Bool) (w : Sweep α) :
    (w.pass drop).appended = w.appended := by
  unfold pass visit
  split
  · rfl
  · split <;> rfl

@[simp] theorem cursor?_turn (drop : α → Bool) (more : Sweep α → List α) (w : Sweep α) :
    (w.turn drop more).cursor? = (w.pass drop).cursor? := by
  unfold turn
  split <;> simp

@[simp] theorem visited_turn (drop : α → Bool) (more : Sweep α → List α) (w : Sweep α) :
    (w.turn drop more).visited = (w.pass drop).visited := by
  unfold turn
  split <;> simp

theorem map_appended_turn (drop : α → Bool) (more : Sweep α → List α) (w : Sweep α) :
    (w.turn drop more).appended.map (·.2) = w.appended.map (·.2) ++
      if (w.turn drop more).cursor?.isSome then more (w.pass drop) else [] := by
  rw [cursor?_turn, turn]
  split
  · rw [map_appended_foldl_append, appended_pass]
  · rw [appended_pass, List.append_nil]

theorem turn_of_ended (ended : w.cursor? = none) : w.turn drop more = w := by
  simp [turn, pass, ended]

/-! ## What is still to come -/

/-- In a sweep along `s` the entries `coming` are still to be visited: the cursor is at the first of
them, and the list holds the visited entries that were not dropped, then them. -/
structure Underway (drop : α → Bool) (s : Slab α) (w : Sweep α) (coming : List (Handle × α)) :
    Prop where
  wf : w.slab.Wf
  cursor : w.cursor? = coming.head?.map (·.1)
  entries : w.slab.entries = w.visited.filter (fun e => !drop e.2) ++ coming
  all : s.entries ++ w.appended = w.visited ++ coming

theorem underway_start (wf : s.Wf) : Underway drop s (start s) s.entries where
  wf := wf
  cursor := wf.first?_eq
  entries := rfl
  all := List.append_nil _

variable {coming : List (Handle × α)}

/-- Passing an entry leaves the rest to come. -/
theorem Underway.pass {h : Handle} {x : α} (under : Underway drop s w ((h, x) :: coming)) :
    (w.pass drop).visited = w.visited ++ [(h, x)] ∧ Underway drop s (w.pass drop) coming := by
  obtain ⟨wf, cursor, entries, all⟩ := under
  have found : w.slab.get? h = some x := wf.get?_eq_some_iff.2 (by simp [entries])
  have next : w.slab.next? h = coming.head?.map (·.1) := wf.next?_eq entries
  have passed : w.pass drop =
      { slab := if drop x then (w.slab.remove h).2 else w.slab
        cursor? := coming.head?.map (·.1)
        visited := w.visited ++ [(h, x)]
        appended := w.appended } := by
    simp [Sweep.pass, visit, cursor, found, next]
  rw [passed]
  refine ⟨rfl, ?_, rfl, ?_, ?_⟩
  · show (if drop x then (w.slab.remove h).2 else w.slab).Wf
    split
    · exact wf.remove h
    · exact wf
  · show (if drop x then (w.slab.remove h).2 else w.slab).entries = _
    by_cases dropped : drop x
    · rw [if_pos dropped, (wf.remove_eq entries).2]
      simp [dropped]
    · rw [if_neg dropped, entries]
      simp [dropped]
  · show s.entries ++ w.appended = w.visited ++ [(h, x)] ++ coming
    rw [all, List.append_assoc, List.singleton_append]

/-- Elements are appended behind what is to come, so the cursor stays where it is. -/
theorem Underway.append (under : Underway drop s w coming) (ne : coming ≠ []) (x : α) :
    Underway drop s (w.append x) (coming ++ [(w.slab.nextHandle, x)]) where
  wf := under.wf.push x
  cursor := by
    rw [List.head?_append_of_ne_nil _ ne]
    exact under.cursor
  entries := by
    show (w.slab.push x).2.entries = _
    rw [under.wf.entries_push, under.entries, List.append_assoc]
    rfl
  all := by
    show s.entries ++ (w.appended ++ [(w.slab.nextHandle, x)]) = _
    rw [← List.append_assoc, under.all, List.append_assoc]
    rfl

theorem Underway.foldl_append (under : Underway drop s w coming) (ne : coming ≠ []) (xs : List α) :
    ∃ new, Underway drop s (xs.foldl Sweep.append w) (coming ++ new) := by
  induction xs generalizing w coming with
  | nil => exact ⟨[], by simpa using under⟩
  | cons x xs ih =>
    obtain ⟨new, under⟩ := ih (under.append ne x) (by simp)
    exact ⟨(w.slab.nextHandle, x) :: new, by simpa using under⟩

/-- A turn visits the first entry that is to come. -/
theorem Underway.turn {e : Handle × α} (under : Underway drop s w (e :: coming)) :
    (w.turn drop more).visited = w.visited ++ [e] ∧
      ∃ new, Underway drop s (w.turn drop more) (coming ++ new) := by
  obtain ⟨visited, under⟩ := under.pass
  refine ⟨by rw [visited_turn, visited], ?_⟩
  unfold Sweep.turn
  split
  · -- there is a next entry, behind which the new ones are put
    next goesOn =>
    refine under.foldl_append ?_ _
    rintro rfl
    rw [under.cursor] at goesOn
    cases goesOn
  · exact ⟨[], by simpa using under⟩

theorem Underway.eq_nil (under : Underway drop s w coming) (ended : w.cursor? = none) :
    coming = [] := by
  have cursor := under.cursor
  rw [ended] at cursor
  cases coming with
  | nil => rfl
  | cons => cases cursor

theorem exists_underway (drop : α → Bool) (more : Sweep α → List α) (wf : s.Wf) (n : Nat) :
    ∃ coming, Underway drop s (after drop more s n) coming := by
  induction n with
  | zero => exact ⟨_, underway_start wf⟩
  | succ n ih =>
    obtain ⟨coming, under⟩ := ih
    cases coming with
    | nil => exact ⟨[], by rwa [after, turn_of_ended under.cursor]⟩
    | cons e coming =>
      obtain ⟨-, new, under⟩ := under.turn
      exact ⟨_, under⟩

/-! ## The end -/

/-- A sweep that is not at its end goes on to visit an entry. -/
theorem exists_visited_succ (wf : s.Wf) {n : Nat}
    (goesOn : (after drop more s n).cursor? ≠ none) :
    ∃ e, (after drop more s (n + 1)).visited = (after drop more s n).visited ++ [e] := by
  obtain ⟨coming, under⟩ := exists_underway drop more wf n
  cases coming with
  | nil => exact absurd under.cursor goesOn
  | cons e coming => exact ⟨e, under.turn.1⟩

theorem after_of_ended {n k : Nat} (ended : (after drop more s n).cursor? = none) (le : n ≤ k) :
    after drop more s k = after drop more s n := by
  induction k, le using Nat.le_induction with
  | base => rfl
  | succ k le ih => rw [after, ih, turn_of_ended ended]

/-- Every turn visits one entry, until the sweep ends. -/
theorem length_visited (wf : s.Wf) {n : Nat}
    (before : ∀ k < n, (after drop more s k).cursor? ≠ none) :
    (after drop more s n).visited.length = n := by
  induction n with
  | zero => rfl
  | succ n ih =>
    obtain ⟨e, visited⟩ := exists_visited_succ wf (before n (Nat.lt_succ_self n))
    rw [visited, List.length_append, ih fun k hk => before k (Nat.lt_succ_of_lt hk)]
    rfl

theorem visited_isPrefix (wf : s.Wf) {k n : Nat} (le : k ≤ n) :
    (after drop more s k).visited <+: (after drop more s n).visited := by
  induction n, le using Nat.le_induction with
  | base => exact List.prefix_rfl
  | succ n le ih =>
    by_cases ended : (after drop more s n).cursor? = none
    · rwa [after, turn_of_ended ended]
    · obtain ⟨e, visited⟩ := exists_visited_succ wf ended
      exact ih.trans ⟨[e], visited.symm⟩

/-- A sweep that appends a limited number of elements comes to an end. -/
theorem exists_end (wf : s.Wf)
    (limited : ∃ bound, ∀ n, (after drop more s n).appended.length ≤ bound) :
    ∃ n, ∀ k, (after drop more s k).cursor? = none ↔ n ≤ k := by
  classical
  have some_end : ∃ n, (after drop more s n).cursor? = none := by
    obtain ⟨bound, limited⟩ := limited
    by_contra never
    -- by then more entries would have been visited than were ever in the list
    let n := s.entries.length + bound + 1
    obtain ⟨coming, under⟩ := exists_underway drop more wf n
    have visits : (after drop more s n).visited.length = n :=
      length_visited wf fun k _ => not_exists.1 never k
    have all := congrArg List.length under.all
    have few := limited n
    simp only [List.length_append, visits] at all
    omega
  refine ⟨Nat.find some_end, fun k => ⟨fun ended => Nat.find_min' some_end ended, fun le => ?_⟩⟩
  rw [after_of_ended (Nat.find_spec some_end) le]
  exact Nat.find_spec some_end

/-- As long as a sweep goes on, all that is to be appended is. -/
theorem map_appended_after {n : Nat}
    (goesOn : ∀ k < n, (after drop more s (k + 1)).cursor? ≠ none) :
    (after drop more s n).appended.map (·.2) =
      (List.range n).flatMap fun k => more ((after drop more s k).pass drop) := by
  induction n with
  | zero => rfl
  | succ n ih =>
    have last := Option.isSome_iff_ne_none.2 (goesOn n (Nat.lt_succ_self n))
    rw [after] at last
    rw [List.range_succ, List.flatMap_append, List.flatMap_singleton, after, map_appended_turn,
      if_pos last, ih fun k hk => goesOn k (Nat.lt_succ_of_lt hk)]

theorem appended_after_nil (n : Nat) : (after drop (fun _ => []) s n).appended = [] := by
  induction n with
  | zero => rfl
  | succ n ih =>
    rw [after, turn]
    split
    · rw [List.foldl_nil, appended_pass, ih]
    · rw [appended_pass, ih]

/-- The last turn appends nothing. -/
theorem map_appended_of_ended {n : Nat} (ended : (after drop more s n).cursor? = none)
    (first : ∀ k < n, (after drop more s k).cursor? ≠ none) :
    (after drop more s n).appended.map (·.2) =
      (List.range (n - 1)).flatMap fun k => more ((after drop more s k).pass drop) := by
  cases n with
  | zero => rfl
  | succ n =>
    rw [after] at ended
    rw [after, map_appended_turn, ended, map_appended_after fun k hk => first (k + 1) (by omega)]
    simp

/-- The sweep along `s` ends after `n` turns. They visit the entries of `s` and those appended on the
way, one in each turn and in order. All that was to be appended is there, but for what the last turn
would append, and all that was not to be dropped is left, under its old handles. -/
structure Completes (drop : α → Bool) (more : Sweep α → List α) (s : Slab α) (n : Nat)
    (appended : List (Handle × α)) : Prop where
  ends : ∀ k, (after drop more s k).cursor? = none ↔ n ≤ k
  length : n = (s.entries ++ appended).length
  visits : ∀ k, (after drop more s k).visited = (s.entries ++ appended).take k
  appends : (after drop more s n).appended = appended ∧
    appended.map (·.2) =
      (List.range (n - 1)).flatMap fun k => more ((after drop more s k).pass drop)
  leaves : (after drop more s n).slab.Shows ((s.entries ++ appended).filter fun e => !drop e.2)

end Sweep

open Sweep

variable {s : Slab α}

theorem Wf.exists_completes (wf : s.Wf) {drop : α → Bool} {more : Sweep α → List α}
    (limited : ∃ bound, ∀ n, (after drop more s n).appended.length ≤ bound) :
    ∃ n appended, Completes drop more s n appended := by
  obtain ⟨n, ends⟩ := exists_end wf limited
  have ended : (after drop more s n).cursor? = none := (ends n).2 (Nat.le_refl n)
  have goesOn (k : Nat) (lt : k < n) : (after drop more s k).cursor? ≠ none :=
    fun h => Nat.not_le.2 lt ((ends k).1 h)
  obtain ⟨coming, under⟩ := exists_underway drop more wf n
  obtain rfl := under.eq_nil ended
  have all : (after drop more s n).visited = s.entries ++ (after drop more s n).appended := by
    rw [under.all, List.append_nil]
  have length : (after drop more s n).visited.length = n := length_visited wf goesOn
  refine ⟨n, _, ends, ?_, fun k => ?_, ⟨rfl, map_appended_of_ended ended goesOn⟩, ?_⟩
  · rw [← all, length]
  · -- what has been visited by the turn `k` only grows afterwards
    rw [← all]
    rcases Nat.le_total k n with le | le
    · have visits := length_visited wf fun j (lt : j < k) => goesOn j (by omega)
      have first : (after drop more s k).visited <+: (after drop more s n).visited :=
        visited_isPrefix wf le
      rwa [List.prefix_iff_eq_take, visits] at first
    · rw [after_of_ended ended le, List.take_of_length_le (by omega)]
  · have shows := under.wf.shows
    rwa [under.entries, List.append_nil, all] at shows

/-- In every list that a run of operations leads to: a sweep that only drops elements visits every entry
once, in order, and ends. So does one that also appends elements, a limited number of them and none when
it is at the last entry, and it visits these as well. -/
theorem sweep_visits_each_once (commands : List (Command α)) (drop : α → Bool) :
    let s := empty.run commands
    Completes drop (fun _ => []) s s.entries.length [] ∧
      ∀ more, (∃ bound, ∀ n, (after drop more s n).appended.length ≤ bound) →
        ∃ n appended, Completes drop more s n appended := by
  intro s
  have wf : s.Wf := Wf.empty.run commands
  refine ⟨?_, fun more limited => wf.exists_completes limited⟩
  have limited (n : Nat) : (after drop (fun _ => []) s n).appended.length ≤ 0 := by
    rw [appended_after_nil, List.length_nil]
  obtain ⟨n, appended, completes⟩ := wf.exists_completes ⟨0, limited⟩
  obtain rfl : appended = [] := by rw [← completes.appends.1, appended_after_nil]
  obtain rfl : n = s.entries.length := by simpa using completes.length
  exact completes

/-- An appended element takes the cell of the element just dropped. -/
theorem sweep_visits_each_once_reused :
    let s : Slab Nat := empty.run [.push 0, .push 1, .push 2]
    let drop : Nat → Bool := (· % 2 == 0)
    let more : Sweep Nat → List Nat := fun w => if w.visited.length = 1 then [4, 5] else []
    (∃ bound, ∀ n, (after drop more s n).appended.length ≤ bound) ∧
      Completes drop more s 5 [(⟨0, 1⟩, 4), (⟨3, 0⟩, 5)] := by
  intro s drop more
  have ended : (after drop more s 5).cursor? = none := by decide
  have limited (n : Nat) : (after drop more s n).appended.length ≤ 2 := by
    rcases Nat.lt_or_ge n 5 with lt | ge
    · have early : ∀ n < 5, (after drop more s n).appended.length ≤ 2 := by decide
      exact early n lt
    · rw [after_of_ended ended ge]
      decide
  obtain ⟨n, appended, completes⟩ :=
    (sweep_visits_each_once [.push 0, .push 1, .push 2] drop).2 more ⟨2, limited⟩
  have le : n ≤ 5 := (completes.ends 5).1 ended
  have gt : ¬ n ≤ 4 := fun le => absurd ((completes.ends 4).2 le) (by decide)
  obtain rfl : n = 5 := by omega
  obtain rfl : appended = [(⟨0, 1⟩, 4), (⟨3, 0⟩, 5)] := completes.appends.1 ▸ by decide
  exact ⟨⟨2, limited⟩, completes⟩

end Slab

end Dataflow
