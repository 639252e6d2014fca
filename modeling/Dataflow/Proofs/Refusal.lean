import Dataflow.Proofs.History

/-!
# Refused edits

An edit that is refused leaves the graph as it was, whatever it was given: every check comes before the
first change. For most edits this can be seen from the way they are built: they return no graph when
they are refused, or run behind a guard and are never refused from there on (`eq_of_guarded_refused`).
Erasing consists of steps that can be refused by themselves; in a coherent graph they are not once the
node is known to be listed, so erasing is refused at the start or not at all
(`Coherent.eraseNode_eq_error_iff`, `Coherent.eraseFunc_eq_error_iff`).
-/

namespace Dataflow

namespace Graph

variable {g : Graph}

/-! ## Guarded edits -/

/-- If nothing is refused behind the guard, an edit that is refused has changed nothing. -/
theorem eq_of_guarded_refused {α β : Type} {check : Except Refusal α} {edit : α → Outcome β}
    {r : Refusal} (accepts : ∀ a, (edit a).2 ≠ .error (.refused r))
    (refused : (g.guarded check edit).2 = .error (.refused r)) : (g.guarded check edit).1 = g := by
  cases check with
  | error e => rfl
  | ok a => exact absurd refused (accepts a)

/-- A redirection can only break a contract. -/
theorem redirectUses_ne_refused (p : NodeId) (tokens : List Token)
    (goal : Nat → Except Violation Value) (r : Refusal) :
    (g.redirectUses p tokens goal).2 ≠ .error (.refused r) := by
  unfold redirectUses
  dsimp only
  cases (redirect p goal tokens g 0).2 <;> simp [Except.mapError]

theorem eq_of_replaceUses_refused {source target : Value} {r : Refusal}
    (refused : (g.replaceUses source target).2 = .error (.refused r)) :
    (g.replaceUses source target).1 = g := by
  cases source with
  | null => rfl
  | result p i =>
    refine eq_of_guarded_refused (fun tokens => ?_) refused
    split_ifs
    · exact nofun
    · exact redirectUses_ne_refused _ _ _ _

theorem eq_of_replaceNode_refused {old new : NodeId} {r : Refusal}
    (refused : (g.replaceNode old new).2 = .error (.refused r)) :
    (g.replaceNode old new).1 = g := by
  refine eq_of_guarded_refused (fun (tokens, count) => ?_) refused
  dsimp only
  split_ifs
  · exact nofun
  · exact redirectUses_ne_refused _ _ _ _

theorem eq_of_clearUses_refused {n : NodeId} {r : Refusal}
    (refused : (g.clearUses n).2 = .error (.refused r)) : (g.clearUses n).1 = g :=
  eq_of_guarded_refused (fun _ => redirectUses_ne_refused _ _ _ _) refused

/-! ## Erasing -/

/-- Erasing a node is refused exactly if the function is unknown or does not list the node. -/
theorem Coherent.eraseNode_eq_error_iff (co : g.Coherent) {f : FuncId} {n : NodeId} {e : Fault} :
    (g.eraseNode f n).2 = .error e ↔
      ¬ g.HasFunc f ∧ e = .refused (.unknownFunc f) ∨
        g.HasFunc f ∧ ¬ g.Lists f n ∧ e = .refused (.notOwned n f) := by
  by_cases exists_ : g.HasFunc f
  · by_cases listed : g.Lists f n
    · obtain ⟨h, erased, -⟩ := co.eraseNode listed
      simp [erased, exists_, listed]
    · obtain ⟨func, hf, rfl, found⟩ := co.owned.exists_func exists_
      have absent : ¬ func.roster.contains n := fun hn => listed
        ⟨func, hf, rfl, func.roster.contains_iff.1 hn⟩
      have failed : (do g.checkOwned func.id n; g.clearOperands n) =
          .error (.notOwned n func.id) := by
        simp [checkOwned, found, absent, bind, Except.bind, throw, throwThe, MonadExceptOf.throw]
      rw [Graph.eraseNode, guarded_of_error failed]
      simp [exists_, listed, eq_comm]
  · have failed : (do g.checkOwned f n; g.clearOperands n) = .error (.unknownFunc f) := by
      simp [checkOwned, funcOrRefusal_eq_error_iff.2 ⟨exists_, rfl⟩, bind, Except.bind]
    rw [Graph.eraseNode, guarded_of_error failed]
    simp [exists_, eq_comm]

/-- Erasing a function is refused exactly if it is unknown. -/
theorem Coherent.eraseFunc_eq_error_iff (co : g.Coherent) {f : FuncId} {e : Fault} :
    (g.eraseFunc f).2 = .error e ↔ ¬ g.HasFunc f ∧ e = .refused (.unknownFunc f) := by
  by_cases exists_ : g.HasFunc f
  · obtain ⟨h, erased, -⟩ := co.eraseFunc exists_
    simp [erased, exists_]
  · rw [Graph.eraseFunc, guarded_of_error (funcOrRefusal_eq_error_iff.2 ⟨exists_, rfl⟩)]
    simp [exists_, eq_comm]

theorem Coherent.eq_of_eraseNode_error (co : g.Coherent) {f : FuncId} {n : NodeId} {e : Fault}
    (failed : (g.eraseNode f n).2 = .error e) : (g.eraseNode f n).1 = g := by
  have unlisted : ¬ g.Lists f n := by
    rcases co.eraseNode_eq_error_iff.1 failed with ⟨missing, -⟩ | ⟨-, unlisted, -⟩
    · exact fun listed => missing listed.hasFunc
    · exact unlisted
  obtain ⟨r, eq⟩ := co.owned.eraseNode_of_not_lists unlisted
  rw [eq]

theorem Coherent.eq_of_eraseFunc_error (co : g.Coherent) {f : FuncId} {e : Fault}
    (failed : (g.eraseFunc f).2 = .error e) : (g.eraseFunc f).1 = g := by
  obtain ⟨missing, -⟩ := co.eraseFunc_eq_error_iff.1 failed
  rw [Graph.eraseFunc, guarded_of_error (funcOrRefusal_eq_error_iff.2 ⟨missing, rfl⟩)]

end Graph

namespace Workspace

variable {w : Workspace}

/-! ## Edits of a workspace -/

theorem eq_of_edit_error {result : Except Fault (Graph × Reply)} {e : Fault}
    (failed : (w.edit result).2 = .error e) : (w.edit result).1 = w := by
  cases result with
  | error e => rfl
  | ok a => cases failed

theorem eq_of_editPartly_error {α : Type} {outcome : Graph.Outcome α} {reply : α → Reply} {e : Fault}
    (unchanged : outcome.2 = .error e → outcome.1 = w.graph)
    (failed : (w.editPartly outcome reply).2 = .error e) : (w.editPartly outcome reply).1 = w := by
  have failed : outcome.2 = .error e := by
    cases h : outcome.2 with
    | error e' => simpa [editPartly, h, Except.map] using failed
    | ok a => simp [editPartly, h, Except.map] at failed
  rw [editPartly, unchanged failed]

theorem changeDraft_ne_refused (n : NodeId) (change : Node → Except Violation Node) (r : Refusal) :
    (w.changeDraft n change).2 ≠ .error (.refused r) := by
  unfold changeDraft
  split
  · exact nofun
  · split <;> exact nofun

theorem guardDraft_ne_refused (n : NodeId) (v : Value) (r : Refusal) :
    (w.guardDraft n v).2 ≠ .error (.refused r) := by
  unfold guardDraft
  split
  · exact nofun
  · split <;> exact nofun

theorem make_ne_refused (spec : Node.Spec) (r : Refusal) :
    (w.make spec).2 ≠ .error (.refused r) := by
  unfold make
  dsimp only
  split <;> exact nofun

theorem clone_ne_refused (n : NodeId) (r : Refusal) : (w.clone n).2 ≠ .error (.refused r) := by
  unfold clone
  split <;> exact nofun

/-- A free node that cannot be attached is given up, and nothing else changes. -/
theorem eq_of_attach_refused {n : NodeId} {f : FuncId} {before? : Option NodeId} {r : Refusal}
    (refused : (w.attach n f before?).2 = .error (.refused r)) :
    (w.attach n f before?).1 = w.drop n := by
  unfold attach at refused ⊢
  split at refused
  · cases refused
  · split at refused
    · simp only
    · cases refused

/-- An edit that is refused leaves the workspace as it was, but for a free node that cannot be
attached. -/
theorem Consistent.eq_of_refused (co : w.Consistent) {e : Edit} {r : Refusal}
    (refused : (w.apply e).2 = .error (.refused r)) :
    (w.apply e).1 = w ∨ ∃ n f before?, e = .attach n f before? ∧ (w.apply e).1 = w.drop n := by
  cases e with
  | attach n f before? => exact .inr ⟨n, f, before?, rfl, eq_of_attach_refused refused⟩
  | reserveNode | reserveFunc | addFunc => cases refused
  | make spec => exact absurd refused (make_ne_refused spec r)
  | clone n => exact absurd refused (clone_ne_refused n r)
  | pushInput | setDraftInput | addResult | setDraftType | setDraftName | forceParent | forceUse =>
    exact absurd refused (changeDraft_ne_refused _ _ _)
  | setDraftPredicate n v => exact absurd refused (guardDraft_ne_refused n v r)
  | setInput | setPredicate | setType | setName | clearOperands | moveRange =>
    exact .inl (eq_of_edit_error refused)
  | eraseFunc f => exact .inl (eq_of_editPartly_error co.coherent.eq_of_eraseFunc_error refused)
  | eraseNode f n => exact .inl (eq_of_editPartly_error co.coherent.eq_of_eraseNode_error refused)
  | replaceUses source target =>
    exact .inl (eq_of_editPartly_error Graph.eq_of_replaceUses_refused refused)
  | replaceNode old new =>
    exact .inl (eq_of_editPartly_error Graph.eq_of_replaceNode_refused refused)
  | clearUses n => exact .inl (eq_of_editPartly_error Graph.eq_of_clearUses_refused refused)

theorem editPartly_eq_error_iff {α : Type} {outcome : Graph.Outcome α} {reply : α → Reply}
    {e : Fault} : (w.editPartly outcome reply).2 = .error e ↔ outcome.2 = .error e := by
  unfold editPartly
  cases outcome.2 <;> simp [Except.map]

/-- In a reachable workspace an edit that is refused leaves the graph as it was, and everything else as
well unless a free node could not be attached. Nor does anything change when an input or a result that
does not exist is set. Erasing fails only if the function is unknown or does not list the node. -/
theorem Reachable.failed_edits_change_nothing (reach : w.Reachable) :
    (∀ e r, (w.apply e).2 = .error (.refused r) → (w.apply e).1.graph = w.graph ∧
      ((∀ n f before?, e ≠ .attach n f before?) → (w.apply e).1 = w)) ∧
    (∀ n i v fault, (w.apply (.setInput n i v)).2 = .error fault →
      (w.apply (.setInput n i v)).1 = w) ∧
    (∀ n i t fault, (w.apply (.setType n i t)).2 = .error fault →
      (w.apply (.setType n i t)).1 = w) ∧
    (∀ f fault, (w.apply (.eraseFunc f)).2 = .error fault ↔
      ¬ w.graph.HasFunc f ∧ fault = .refused (.unknownFunc f)) ∧
    ∀ f n fault, (w.apply (.eraseNode f n)).2 = .error fault ↔
      ¬ w.graph.HasFunc f ∧ fault = .refused (.unknownFunc f) ∨
        w.graph.HasFunc f ∧ ¬ w.graph.Lists f n ∧ fault = .refused (.notOwned n f) := by
  have co := reach.consistent
  refine ⟨fun e r refused => ?_, fun n i v _ => eq_of_edit_error, fun n i t _ => eq_of_edit_error,
    fun f fault => ?_, fun f n fault => ?_⟩
  · rcases co.eq_of_refused refused with same | ⟨n, f, before?, rfl, dropped⟩
    · exact ⟨congrArg Workspace.graph same, fun _ => same⟩
    · exact ⟨by rw [dropped]; rfl, fun other => absurd rfl (other n f before?)⟩
  · exact editPartly_eq_error_iff.trans co.coherent.eraseFunc_eq_error_iff
  · exact editPartly_eq_error_iff.trans co.coherent.eraseNode_eq_error_iff

/-- A range that is given back to front cannot be moved, and a node cannot be erased from a function
that does not exist. -/
theorem failed_edits_change_nothing_diamond :
    let w := empty.run diamond
    let e : Edit := .moveRange ⟨0⟩ ⟨2⟩ ⟨1⟩ ⟨0⟩ none
    w.Reachable ∧ (w.apply e).2 = .error (.refused (.invalidRange ⟨0⟩ ⟨2⟩ ⟨1⟩)) ∧
      (w.apply e).1 = w ∧ ¬ w.graph.HasFunc ⟨1⟩ ∧
      (w.apply (.eraseNode ⟨1⟩ ⟨2⟩)).2 = .error (.refused (.unknownFunc ⟨1⟩)) := by
  intro w e
  obtain ⟨refused, -, -, -, erased⟩ := Reachable.failed_edits_change_nothing reachable_diamond
  have failed : (w.apply e).2 = .error (.refused (.invalidRange ⟨0⟩ ⟨2⟩ ⟨1⟩)) := by decide +kernel
  have missing : ¬ w.graph.HasFunc ⟨1⟩ := by unfold Graph.HasFunc; decide +kernel
  refine ⟨reachable_diamond, failed, (refused e _ failed).2 fun _ _ _ => Edit.noConfusion, missing, ?_⟩
  exact (erased ⟨1⟩ ⟨2⟩ _).2 (.inl ⟨missing, rfl⟩)

end Workspace

end Dataflow
