import Dataflow.Proofs.SlabSequence
import Mathlib.Algebra.GroupWithZero.Nat

/-!
# Lifetimes of handles

A handle resolves to its element from the insertion on until it is removed (`Slab.Wf.get?_run`), since
an operation touches other entries only. From then on it is told from the handles that its cell gives
out later by the generation. A cell is emptied by removals only, and each of them raises its generation
by one (`Slab.emptied_run`), so a removed handle stays stale until its cell has been emptied `2 ^ 32`
times and the generations begin to repeat (`Slab.Wf.outdated_run`).
-/

namespace Dataflow

namespace Slab

variable {α : Type} {s : Slab α} {h : Handle} {x : α}

/-! ## Inserted elements -/

/-- The element that an operation inserts. -/
def Command.element? : Command α → Option α
  | .push x => some x
  | .insertBefore _ x => some x
  | .remove _ => none

/-- An operation that answers with a handle has listed its element under it. -/
theorem Effect.mem_of_inserted {l l' : List (Handle × α)} {c : Command α}
    (effect : Effect l c (.inserted h) l') (inserts : c.element? = some x) : (h, x) ∈ l' := by
  cases effect <;> cases inserts <;> simp

/-- An entry stays listed as long as its handle is not removed. -/
theorem Effect.mem_of_ne {l l' : List (Handle × α)} {c : Command α} {a : Answer α}
    (effect : Effect l c a l') (listed : (h, x) ∈ l) (other : c ≠ .remove h) : (h, x) ∈ l' := by
  cases effect with
  | push | append => exact List.mem_append_left _ listed
  | insert =>
    rw [List.mem_append] at listed ⊢
    exact listed.imp_right (List.mem_cons_of_mem _)
  | delete =>
    rw [List.mem_append, List.mem_cons] at listed
    rw [List.mem_append]
    refine listed.imp_right (Or.resolve_left · ?_)
    rintro ⟨⟩
    exact other rfl
  | refuse | keep => exact listed

theorem Wf.get?_apply (wf : s.Wf) {c : Command α} (here : s.get? h = some x)
    (other : c ≠ .remove h) : (s.apply c).2.get? h = some x :=
  (wf.apply c).get?_eq_some_iff.2 ((wf.effect c).mem_of_ne (wf.get?_eq_some_iff.1 here) other)

theorem Wf.get?_run (wf : s.Wf) {commands : List (Command α)} (here : s.get? h = some x)
    (kept : .remove h ∉ commands) : (s.run commands).get? h = some x := by
  induction commands generalizing s with
  | nil => exact here
  | cons c commands ih =>
    rw [List.mem_cons, not_or] at kept
    exact ih (wf.apply c) (wf.get?_apply here (Ne.symm kept.1)) kept.2

/-- The handle of an inserted element is that of the next element. -/
theorem eq_nextHandle {c : Command α} (inserted : (s.apply c).1 = .inserted h) :
    h = s.nextHandle := by
  cases c with
  | push x => exact (Answer.inserted.inj inserted).symm
  | insertBefore anchor? x =>
    cases anchor? with
    | none => exact (Answer.inserted.inj inserted).symm
    | some anchor =>
      rw [apply, insertBefore] at inserted
      split_ifs at inserted with live
      exact (Answer.inserted.inj inserted).symm
  | remove h => cases inserted

/-! ## Generations -/

/-- How often the cell `i` has been emptied. -/
def emptied (s : Slab α) (i : Nat) : Nat := (s.cells[i]?.map (·.emptied)).getD 0

/-- Whether an operation empties the cell `i`. -/
def empties (s : Slab α) (i : Nat) : Command α → Bool
  | .remove h => s.contains h && h.index == i
  | _ => false

/-- How many of the operations empty the cell `i`. -/
def emptyings (s : Slab α) (i : Nat) : List (Command α) → Nat
  | [] => 0
  | c :: commands => (s.empties i c).toNat + (s.apply c).2.emptyings i commands

theorem emptied_linkBefore (s : Slab α) (i : Nat) (at? : Option Nat) (j : Nat) :
    (s.linkBefore i at?).emptied j = s.emptied j := by
  rw [emptied, emptied, cells_linkBefore, Option.map_map]
  rfl

theorem emptied_place (s : Slab α) (x : α) (i : Nat) : (s.place x).emptied i = s.emptied i := by
  rw [emptied, emptied, place]
  split
  · rw [Array.getElem?_push]
    split_ifs with last
    · rw [last, Array.getElem?_size]
      rfl
    · rfl
  · rw [getElem?_modifyCell]
    split_ifs
    · rw [Option.map_map]
      rfl
    · rfl

theorem emptied_remove (s : Slab α) (h : Handle) (i : Nat) :
    (s.remove h).2.emptied i = s.emptied i + (s.empties i (.remove h)).toNat := by
  cases live : s.live? h with
  | none => simp [remove, empties, contains, live]
  | some c =>
    obtain ⟨cell, -, -⟩ := live?_eq_some_iff.1 live
    simp only [remove, live, emptied, cells_release, cells_setPrev, cells_setNext, empties, contains,
      Option.isSome_some, Bool.true_and]
    by_cases same : h.index = i
    · subst same
      simp [cell]
    · simp [same, Function.comp_def]

theorem emptied_apply (s : Slab α) (c : Command α) (i : Nat) :
    (s.apply c).2.emptied i = s.emptied i + (s.empties i c).toNat := by
  have insert (j : Nat) (at? : Option Nat) (x : α) :
      ((s.place x).linkBefore j at?).emptied i = s.emptied i := by
    rw [emptied_linkBefore, emptied_place]
  cases c with
  | push x => exact insert _ none x
  | insertBefore anchor? x =>
    cases anchor? with
    | none => exact insert _ none x
    | some anchor =>
      rw [apply, insertBefore]
      split_ifs
      · exact insert _ _ x
      · rfl
  | remove h => exact emptied_remove s h i

/-- A cell is emptied by removals only. -/
theorem emptied_run (s : Slab α) (commands : List (Command α)) (i : Nat) :
    (s.run commands).emptied i = s.emptied i + s.emptyings i commands := by
  induction commands generalizing s with
  | nil => rfl
  | cons c commands ih => rw [run, List.foldl_cons, ← run, ih, emptied_apply, emptyings, Nat.add_assoc]

/-- A live handle carries the current generation of its cell. -/
theorem generation_of_contains (live : s.contains h) :
    h.generation = UInt32.ofNat (s.emptied h.index) := by
  obtain ⟨c, here⟩ := Option.isSome_iff_exists.1 live
  obtain ⟨cell, generation, -⟩ := live?_eq_some_iff.1 here
  rw [emptied, cell, ← generation]
  rfl

theorem generation_nextHandle (s : Slab α) :
    s.nextHandle.generation = UInt32.ofNat (s.emptied s.nextHandle.index) := by
  rw [emptied, nextHandle]
  split
  · rw [Array.getElem?_size]
    rfl
  · next i _ _ => cases s.cells[i]? <;> rfl

/-! ## Removed handles -/

/-- The cell of `h` has been emptied since it gave out `h`, and the generations have not come round to
that of `h` again. -/
def Outdated (s : Slab α) (h : Handle) : Prop :=
  h.generation ≠ UInt32.ofNat (s.emptied h.index)

theorem Outdated.contains_eq_false (outdated : s.Outdated h) : s.contains h = false :=
  Bool.eq_false_iff.2 fun live => outdated (generation_of_contains live)

theorem Outdated.ne_nextHandle (outdated : s.Outdated h) : h ≠ s.nextHandle := by
  rintro rfl
  exact outdated (generation_nextHandle s)

theorem ofNat_ne_ofNat_add {n k : Nat} (pos : 0 < k) (few : k < 2 ^ 32) :
    UInt32.ofNat n ≠ UInt32.ofNat (n + k) := by
  intro same
  have same := congrArg UInt32.toNat same
  rw [UInt32.toNat_ofNat', UInt32.toNat_ofNat'] at same
  omega

/-- Removing a handle that resolves empties its cell. -/
theorem Wf.emptyings_pos (wf : s.Wf) {commands : List (Command α)} (here : s.get? h = some x)
    (removed : .remove h ∈ commands) : 0 < s.emptyings h.index commands := by
  induction commands generalizing s with
  | nil => cases removed
  | cons c commands ih =>
    rw [emptyings]
    by_cases now : c = .remove h
    · subst now
      have live : s.contains h := by rw [contains_eq_isSome_get?, here, Option.isSome_some]
      have once : (s.empties h.index (.remove h)).toNat = 1 := by simp [empties, live]
      omega
    · have later := (List.mem_cons.1 removed).resolve_left (Ne.symm now)
      exact Nat.add_pos_right _ (ih (wf.apply c) (wf.get?_apply here now) later)

/-- A handle that has been removed is outdated until its cell has been emptied too often. -/
theorem Wf.outdated_run (wf : s.Wf) {commands : List (Command α)} (here : s.get? h = some x)
    (removed : .remove h ∈ commands) (few : s.emptyings h.index commands < 2 ^ 32) :
    (s.run commands).Outdated h := by
  have live : s.contains h := by rw [contains_eq_isSome_get?, here, Option.isSome_some]
  rw [Outdated, emptied_run, generation_of_contains live]
  exact ofNat_ne_ofNat_add (wf.emptyings_pos here removed) few

/-! ## Runs -/

/-- In a run that goes on after the operation `c` has inserted `x` and answered the handle `h`: as long
as `h` is not removed, it resolves to `x`. If it has been removed, and its cell emptied less than
`2 ^ 32` times since it was given out, it resolves to nothing, has no neighbours and removing it does
nothing. Nor is it given out again. -/
theorem handle_lifetime (before after : List (Command α)) {c : Command α}
    (inserts : c.element? = some x) (inserted : ((empty.run before).apply c).1 = .inserted h) :
    let s := empty.run (before ++ c :: after)
    let emptyings := (empty.run (before ++ [c])).emptyings h.index after
    (.remove h ∉ after →
      s.contains h ∧ s.get? h = some x ∧ (s.apply (.remove h)).1 = .removed (some x)) ∧
    (.remove h ∈ after → emptyings < 2 ^ 32 →
      s.contains h = false ∧ s.get? h = none ∧ s.next? h = none ∧ s.prev? h = none ∧
        s.apply (.remove h) = (.removed none, s)) ∧
    (emptyings < 2 ^ 32 → ∀ c' h', (s.apply c').1 = .inserted h' → h' ≠ h) := by
  intro s emptyings
  have wf : (empty.run (before ++ [c])).Wf := Wf.empty.run _
  have start : (empty.run (before ++ [c])).get? h = some x := by
    rw [wf.get?_eq_some_iff, run_concat]
    have effect := (Wf.empty.run before).effect c
    rw [inserted] at effect
    exact effect.mem_of_inserted inserts
  have hs : s = (empty.run (before ++ [c])).run after := by
    rw [← run_append, List.append_assoc, List.singleton_append]
  have kept (h_kept : .remove h ∉ after) : s.get? h = some x := hs ▸ wf.get?_run start h_kept
  have outdated (removed : .remove h ∈ after) (few : emptyings < 2 ^ 32) : s.Outdated h :=
    hs ▸ wf.outdated_run start removed few
  refine ⟨fun h_kept => ?_, fun removed few => ?_, fun few c' h' answer => ?_⟩
  · have here := kept h_kept
    refine ⟨?_, here, ?_⟩
    · rw [contains_eq_isSome_get?, here, Option.isSome_some]
    · rw [apply, fst_remove, here]
  · have gone := (outdated removed few).contains_eq_false
    have absent : s.get? h = none := by
      rwa [contains_eq_isSome_get?, Option.isSome_eq_false_iff, Option.isNone_iff_eq_none] at gone
    obtain ⟨next, prev⟩ := neighbours_of_stale gone
    exact ⟨gone, absent, next, prev, by rw [apply, remove_of_stale gone]⟩
  · rw [eq_nextHandle answer]
    by_cases removed : .remove h ∈ after
    · exact (outdated removed few).ne_nextHandle.symm
    · have listed := (Wf.empty.run _).get?_eq_some_iff.1 (kept removed)
      intro same
      exact (Wf.empty.run _).nextHandle_fresh (same ▸ List.mem_map_of_mem listed)

/-- The cell of a removed element is used again under another handle. -/
theorem handle_lifetime_reused :
    let h : Handle := ⟨0, 0⟩
    let after : List (Command Nat) := [.remove h, .push 8]
    let s := empty.run ([] ++ .push 7 :: after)
    (.remove h ∈ after) ∧ (empty.run ([] ++ [.push 7])).emptyings h.index after < 2 ^ 32 ∧
      s.get? h = none ∧ s.get? ⟨0, 1⟩ = some 8 ∧
      ∀ c' h', (s.apply c').1 = .inserted h' → h' ≠ h := by
  intro h after s
  obtain ⟨-, removed, unique⟩ := handle_lifetime [] after (c := .push 7) (x := 7) (h := h) rfl rfl
  have gone : .remove h ∈ after := List.mem_cons_self ..
  have few : (empty.run ([] ++ [.push 7])).emptyings h.index after < 2 ^ 32 := by decide
  obtain ⟨-, absent, -⟩ := removed gone few
  exact ⟨gone, few, absent, by decide, unique few⟩

end Slab

end Dataflow
