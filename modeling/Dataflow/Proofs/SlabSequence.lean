import Dataflow.Slab.View
import Mathlib.Data.List.Nodup

/-!
# Lists in a slab as sequences

A slab can be looked at from many sides: front to back and back to front, by handle, by neighbour and
by the cells in use. All of them show one sequence of entries (`Slab.Shows`). An operation changes the
sequence as `Effect` says, by appending, by inserting right before the anchor or by deleting, and not
at all when it is refused or finds nothing (`Slab.Wf.effect`). So a run of operations on a slab is a
run on a plain sequence (`Slab.run_refines_sequence`).
-/

namespace Dataflow

namespace Slab

variable {α : Type}

/-! ## Operations -/

/-- An operation on a list. -/
inductive Command (α : Type) where
  | push (x : α)
  | insertBefore (anchor? : Option Handle) (x : α)
  | remove (h : Handle)
deriving DecidableEq

/-- What an operation answers. -/
inductive Answer (α : Type) where
  | inserted (h : Handle)
  | refused (e : InsertError)
  | removed (element? : Option α)
deriving DecidableEq

/-- Carries out an operation. -/
def apply (s : Slab α) : Command α → Answer α × Slab α
  | .push x => (.inserted (s.push x).1, (s.push x).2)
  | .insertBefore anchor? x =>
    match s.insertBefore anchor? x with
    | .ok (h, s') => (.inserted h, s')
    | .error e => (.refused e, s)
  | .remove h => (.removed (s.remove h).1, (s.remove h).2)

/-- Carries out operations in turn. -/
def run (s : Slab α) (commands : List (Command α)) : Slab α :=
  commands.foldl (fun s c => (s.apply c).2) s

theorem run_append (s : Slab α) (commands more : List (Command α)) :
    s.run (commands ++ more) = (s.run commands).run more :=
  List.foldl_append

theorem run_concat (s : Slab α) (commands : List (Command α)) (c : Command α) :
    s.run (commands ++ [c]) = ((s.run commands).apply c).2 :=
  run_append s commands [c]

/-- What an operation does to a sequence of entries, and what it answers. -/
inductive Effect : List (Handle × α) → Command α → Answer α → List (Handle × α) → Prop
  | push {l h x} (fresh : h ∉ l.map (·.1)) : Effect l (.push x) (.inserted h) (l ++ [(h, x)])
  | append {l h x} (fresh : h ∉ l.map (·.1)) :
    Effect l (.insertBefore none x) (.inserted h) (l ++ [(h, x)])
  | insert {l r anchor y h x} (fresh : h ∉ (l ++ (anchor, y) :: r).map (·.1)) :
    Effect (l ++ (anchor, y) :: r) (.insertBefore (some anchor) x) (.inserted h)
      (l ++ (h, x) :: (anchor, y) :: r)
  | refuse {l anchor x} (stale : anchor ∉ l.map (·.1)) :
    Effect l (.insertBefore (some anchor) x) (.refused .staleAnchor) l
  | delete {l r h x} : Effect (l ++ (h, x) :: r) (.remove h) (.removed (some x)) (l ++ r)
  | keep {l h} (stale : h ∉ l.map (·.1)) : Effect l (.remove h) (.removed none) l

variable {s : Slab α}

theorem Wf.contains_eq_false_iff (wf : s.Wf) {h : Handle} :
    s.contains h = false ↔ h ∉ s.entries.map (·.1) := by
  rw [← wf.contains_iff, Bool.not_eq_true]

/-- Removing a listed handle deletes its entry. -/
theorem Wf.remove_eq (wf : s.Wf) {l r : List (Handle × α)} {h : Handle} {x : α}
    (at_ : s.entries = l ++ (h, x) :: r) :
    (s.remove h).1 = some x ∧ (s.remove h).2.entries = l ++ r := by
  have nodup := wf.nodup_handle
  rw [at_, List.map_append, List.map_cons, List.nodup_middle, List.nodup_cons, List.mem_append,
    not_or] at nodup
  have keep {k : List (Handle × α)} (absent : h ∉ k.map (·.1)) : k.filter (·.1 ≠ h) = k := by
    refine List.filter_eq_self.2 fun e he => decide_eq_true fun same => absent ?_
    exact same ▸ List.mem_map_of_mem he
  constructor
  · rw [fst_remove, wf.get?_eq_some_iff, at_]
    exact List.mem_append_right _ (List.mem_cons_self ..)
  · rw [wf.entries_remove, at_, List.filter_append, List.filter_cons, keep nodup.1.1, keep nodup.1.2]
    simp

/-- An operation on a slab does to the entries what it does to a plain sequence. -/
theorem Wf.effect (wf : s.Wf) (c : Command α) :
    Effect s.entries c (s.apply c).1 (s.apply c).2.entries := by
  cases c with
  | push x =>
    rw [apply, wf.entries_push]
    exact .push wf.nextHandle_fresh
  | insertBefore anchor? x =>
    cases anchor? with
    | none =>
      rw [Slab.apply, Slab.insertBefore, wf.entries_push]
      exact .append wf.nextHandle_fresh
    | some anchor =>
      by_cases live : s.contains anchor
      · obtain ⟨l, y, r, split⟩ := wf.exists_split live
        obtain ⟨s', ok, -, entries⟩ := wf.entries_insertBefore split x
        have fresh := wf.nextHandle_fresh
        rw [split] at fresh
        rw [apply, ok, split, entries]
        exact .insert fresh
      · rw [Slab.apply, Slab.insertBefore, if_neg live]
        exact .refuse (wf.contains_eq_false_iff.1 (Bool.not_eq_true _ ▸ live))
  | remove h =>
    by_cases live : s.contains h
    · obtain ⟨l, x, r, split⟩ := wf.exists_split live
      obtain ⟨answer, entries⟩ := wf.remove_eq split
      rw [apply, answer, entries, split]
      exact .delete
    · rw [Bool.not_eq_true] at live
      rw [apply, remove_of_stale live]
      exact .keep (wf.contains_eq_false_iff.1 live)

/-- An operation that is refused or finds nothing leaves the slab as it was. -/
theorem apply_of_stale (c : Command α)
    (stale : (∃ e, (s.apply c).1 = .refused e) ∨ (s.apply c).1 = .removed none) :
    (s.apply c).2 = s := by
  cases c with
  | push x => simp [apply] at stale
  | insertBefore anchor? x =>
    rw [apply] at stale ⊢
    split
    · next inserted => simp [inserted] at stale
    · rfl
  | remove h =>
    rw [apply, Answer.removed.injEq, fst_remove] at stale
    have gone : s.contains h = false := by
      rw [contains_eq_isSome_get?, stale.resolve_left (by rintro ⟨e, ⟨⟩⟩)]
      rfl
    rw [apply, remove_of_stale gone]

theorem Wf.apply (wf : s.Wf) (c : Command α) : (s.apply c).2.Wf := by
  cases c with
  | push x => exact wf.push x
  | insertBefore anchor? x =>
    rw [Slab.apply]
    split
    · next inserted => exact wf.insertBefore inserted
    · exact wf
  | remove h => exact wf.remove h

theorem Wf.run (wf : s.Wf) (commands : List (Command α)) : (s.run commands).Wf := by
  induction commands generalizing s with
  | nil => exact wf
  | cons c commands ih => exact ih (wf.apply c)

/-! ## Looking at a list -/

/-- The handles met from `h?` on, at most `bound` of them. -/
def path (step : Handle → Option Handle) : Nat → Option Handle → List Handle
  | 0, _ => []
  | _ + 1, none => []
  | bound + 1, some h => h :: path step bound (step h)

/-- Steps to the respective next handle of a list lead along the list and end there. -/
theorem path_eq {step : Handle → Option Handle} {hs : List Handle}
    (steps : ∀ a h b, hs = a ++ h :: b → step h = b.head?) {bound : Nat} (fits : hs.length ≤ bound) :
    path step bound hs.head? = hs := by
  induction hs generalizing bound with
  | nil => cases bound <;> rfl
  | cons h hs ih =>
    obtain ⟨bound, rfl⟩ := Nat.exists_eq_add_of_lt fits
    rw [List.head?_cons, path, steps [] h hs rfl]
    refine congrArg (h :: ·) (ih (fun a h' b split => ?_) (by omega))
    exact steps (h :: a) h' b (congrArg (h :: ·) split)

/-- From every side the slab shows the sequence `l` of entries. Iterating ends by itself, under any
bound that is large enough. -/
structure Shows (s : Slab α) (l : List (Handle × α)) : Prop where
  entries : s.entries = l ∧ ∀ bound, l.length ≤ bound → s.follow (·.next?) bound s.head? = l
  toList : s.toList = l.map (·.2)
  size : s.size = l.length
  distinct : (l.map (·.1)).Nodup
  forward : ∀ bound, l.length ≤ bound → path s.next? bound s.first? = l.map (·.1)
  backward : ∀ bound, l.length ≤ bound → path s.prev? bound s.last? = (l.map (·.1)).reverse
  first : s.first? = l.head?.map (·.1)
  last : s.last? = l.getLast?.map (·.1)
  next : ∀ {a h x b}, l = a ++ (h, x) :: b → s.next? h = b.head?.map (·.1)
  prev : ∀ {a h x b}, l = a ++ (h, x) :: b → s.prev? h = a.getLast?.map (·.1)
  get : ∀ {h x}, s.get? h = some x ↔ (h, x) ∈ l
  contains : ∀ {h}, s.contains h ↔ h ∈ l.map (·.1)
  stale : ∀ {h}, h ∉ l.map (·.1) → s.next? h = none ∧ s.prev? h = none
  cells : (l.map (·.1.index) ++ s.free).Perm (List.range s.cells.size)

theorem neighbours_of_stale {h : Handle} (stale : s.contains h = false) :
    s.next? h = none ∧ s.prev? h = none := by
  rw [contains, Option.isSome_eq_false_iff, Option.isNone_iff_eq_none] at stale
  rw [next?, prev?, stale]
  exact ⟨rfl, rfl⟩

/-- A slab in order shows its entries. -/
theorem Wf.shows (wf : s.Wf) : s.Shows s.entries := by
  have at_ {a b : List Handle} {h : Handle} (split : s.entries.map (·.1) = a ++ h :: b) :
      ∃ l x r, s.entries = l ++ (h, x) :: r ∧ l.map (·.1) = a ∧ r.map (·.1) = b := by
    obtain ⟨l, r, entries, rfl, rest⟩ := List.map_eq_append_iff.1 split
    obtain ⟨⟨_, x⟩, r, rfl, rfl, rfl⟩ := List.map_eq_cons_iff.1 rest
    exact ⟨l, x, r, entries, rfl, rfl⟩
  refine ⟨⟨rfl, fun bound fits => wf.follow_next (wf.size_eq ▸ fits)⟩, rfl, wf.size_eq,
    wf.nodup_handle, fun bound fits => ?_, fun bound fits => ?_, wf.first?_eq, wf.last?_eq,
    wf.next?_eq, wf.prev?_eq, wf.get?_eq_some_iff, wf.contains_iff,
    fun stale => neighbours_of_stale (wf.contains_eq_false_iff.2 stale), wf.cells_perm⟩
  · rw [wf.first?_eq, ← List.head?_map]
    refine path_eq (fun a h b split => ?_) (by simpa using fits)
    obtain ⟨l, x, r, entries, -, rfl⟩ := at_ split
    rw [wf.next?_eq entries, List.head?_map]
  · rw [wf.last?_eq, ← List.getLast?_map, ← List.head?_reverse]
    refine path_eq (fun a h b split => ?_) (by simpa using fits)
    have split : s.entries.map (·.1) = b.reverse ++ h :: a.reverse := by
      rw [← List.reverse_reverse (s.entries.map (·.1)), split]
      simp
    obtain ⟨l, x, r, entries, before, -⟩ := at_ split
    rw [wf.prev?_eq entries, ← List.getLast?_map, before, List.getLast?_reverse]

/-! ## Runs -/

/-- Every run of operations from the empty list, with live and with stale handles, is matched by a run
on a plain sequence of entries: each operation answers and changes the sequence as `Effect` says, the
list shows the sequence at every time, and an operation that is refused or finds nothing leaves the
list as it was. -/
theorem run_refines_sequence (commands : List (Command α)) :
    ∃ seq : Nat → List (Handle × α), seq 0 = [] ∧
      (∀ i ≤ commands.length, (empty.run (commands.take i)).Shows (seq i)) ∧
      ∀ i c, commands[i]? = some c →
        Effect (seq i) c ((empty.run (commands.take i)).apply c).1 (seq (i + 1)) ∧
        ((∃ e, ((empty.run (commands.take i)).apply c).1 = .refused e) ∨
            ((empty.run (commands.take i)).apply c).1 = .removed none →
          empty.run (commands.take (i + 1)) = empty.run (commands.take i)) := by
  have wf (i : Nat) : (empty.run (commands.take i)).Wf := Wf.empty.run _
  refine ⟨fun i => (empty.run (commands.take i)).entries, rfl, fun i _ => (wf i).shows,
    fun i c here => ?_⟩
  have next : empty.run (commands.take (i + 1)) = ((empty.run (commands.take i)).apply c).2 := by
    rw [List.take_add_one, here, Option.toList_some, run_concat]
  refine ⟨?_, next ▸ apply_of_stale c⟩
  simp only [next]
  exact (wf i).effect c

end Slab

end Dataflow
