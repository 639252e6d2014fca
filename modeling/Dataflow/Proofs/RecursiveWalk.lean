import Dataflow.Walk.Basic

/-!
# Walks as recursions

The recursive walk of a walker is an inductive relation between states (`Walker.Walks`). A run that
ends has done what the recursive walk from the same nodes does (`Walker.walks_of_run`), because a run
of joined tasks is a run of the first ones followed by a run of the others, on what is left of the
bound (`Walker.run_append`). Conversely the tasks on a stack are what remains of the recursion, so a
finite recursive walk can be run (`Walker.Walks.run`). A run also ends whenever some measure of the
state falls with every node that is entered and fits the bound (`Walker.exists_run`), as for walkers
that enter no node twice (`Walker.EntersOnce.exists_visit`).
-/

namespace Dataflow

namespace Walker

variable {σ : Type}

/-- `w.Walks g parent? ns s t`: walking from the nodes `ns`, met as operands of `parent?`, one after
the other leads from state `s` to state `t`. -/
inductive Walks (w : Walker σ) (g : Graph) : Option NodeId → List NodeId → σ → σ → Prop
  | nil {parent? s} : Walks w g parent? [] s s
  | missing {parent? n ns s t} (absent : g.node? n = none) (rest : Walks w g parent? ns s t) :
    Walks w g parent? (n :: ns) s t
  | refused {parent? n ns s t node s'} (stored : g.node? n = some node)
    (answer : w.accepts (parent?.bind g.node?) node s = (false, s'))
    (rest : Walks w g parent? ns s' t) : Walks w g parent? (n :: ns) s t
  | entered {parent? n ns s t node s' u} (stored : g.node? n = some node)
    (answer : w.accepts (parent?.bind g.node?) node s = (true, s'))
    (below : Walks w g (some n) node.operandNodes (w.pre (parent?.bind g.node?) node s') u)
    (rest : Walks w g parent? ns (w.post (parent?.bind g.node?) node u) t) :
    Walks w g parent? (n :: ns) s t

theorem Walks.append {w : Walker σ} {g : Graph} {parent? : Option NodeId} {ns ms : List NodeId}
    {s t u : σ} (first : w.Walks g parent? ns s t) (rest : w.Walks g parent? ms t u) :
    w.Walks g parent? (ns ++ ms) s u := by
  induction first with
  | nil => exact rest
  | missing absent _ ih => exact .missing absent (ih rest)
  | refused stored answer _ ih => exact .refused stored answer (ih rest)
  | entered stored answer below _ _ ih => exact .entered stored answer below (ih rest)

theorem exists_walks {w : Walker σ} {g : Graph} {parent? : Option NodeId} {ns : List NodeId}
    (each : ∀ n ∈ ns, ∀ s, ∃ t, w.Walks g parent? [n] s t) (s : σ) :
    ∃ t, w.Walks g parent? ns s t := by
  induction ns generalizing s with
  | nil => exact ⟨s, .nil⟩
  | cons n ns ih =>
    obtain ⟨t, first⟩ := each n (List.mem_cons_self ..) s
    obtain ⟨u, rest⟩ := ih (fun m hm => each m (List.mem_cons_of_mem _ hm)) t
    exact ⟨u, first.append rest⟩

/-- Walks from single roots add up to a walk from all of them. -/
theorem Walks.foldl {w : Walker σ} {g : Graph} {step : σ → NodeId → σ}
    (walks : ∀ s root, w.Walks g none [root] s (step s root)) (roots : List NodeId) (s : σ) :
    w.Walks g none roots s (roots.foldl step s) := by
  induction roots generalizing s with
  | nil => exact .nil
  | cons root roots ih => exact (walks s root).append (ih _)

/-! ## Single tasks -/

variable (w : Walker σ) (g : Graph) (bound : Nat)

theorem run_nil (s : σ) : w.run g bound [] s = some s := by
  rw [run, proceed]

theorem run_leave {n : NodeId} {node : Node} (stored : g.node? n = some node)
    (parent? : Option NodeId) (tasks : List Task) (s : σ) :
    w.run g bound (.leave parent? n :: tasks) s =
      w.run g bound tasks (w.post (parent?.bind g.node?) node s) := by
  rw [run, run, proceed, stored]

theorem run_leave_missing {n : NodeId} (absent : g.node? n = none) (parent? : Option NodeId)
    (tasks : List Task) (s : σ) :
    w.run g bound (.leave parent? n :: tasks) s = w.run g bound tasks s := by
  rw [run, run, proceed, absent]

theorem run_missing {n : NodeId} (absent : g.node? n = none) (parent? : Option NodeId)
    (tasks : List Task) (s : σ) :
    w.run g bound (.enter parent? n :: tasks) s = w.run g bound tasks s := by
  rw [run, run, proceed, absent]

theorem run_refused {n : NodeId} {node : Node} (stored : g.node? n = some node)
    {parent? : Option NodeId} {s s' : σ}
    (answer : w.accepts (parent?.bind g.node?) node s = (false, s')) (tasks : List Task) :
    w.run g bound (.enter parent? n :: tasks) s = w.run g bound tasks s' := by
  rw [run, run, proceed, stored]
  simp only [answer]

theorem run_entered {n : NodeId} {node : Node} (stored : g.node? n = some node)
    {parent? : Option NodeId} {s s' : σ}
    (answer : w.accepts (parent?.bind g.node?) node s = (true, s')) (tasks : List Task) :
    w.run g (bound + 1) (.enter parent? n :: tasks) s =
      w.run g bound (node.operandNodes.map (.enter (some n)) ++ .leave parent? n :: tasks)
        (w.pre (parent?.bind g.node?) node s') := by
  rw [run, proceed, stored]
  simp only [answer]

theorem run_entered_zero {n : NodeId} {node : Node} (stored : g.node? n = some node)
    {parent? : Option NodeId} {s s' : σ}
    (answer : w.accepts (parent?.bind g.node?) node s = (true, s')) (tasks : List Task) :
    w.run g 0 (.enter parent? n :: tasks) s = none := by
  rw [run, proceed, stored]
  simp only [answer]

/-! ## Soundness -/

variable {w g bound}

/-- Joined tasks are worked off one part after the other, the second on what is left of the bound. -/
theorem run_append {a c : List Task} {s t : σ} (done : w.run g bound (a ++ c) s = some t) :
    ∃ m b, b ≤ bound ∧ w.run g bound a s = some m ∧ w.run g b c m = some t := by
  induction bound using Nat.strongRecOn generalizing a s with
  | ind bound ih =>
    induction a generalizing s with
    | nil => exact ⟨s, bound, Nat.le_refl _, run_nil w g bound s, done⟩
    | cons task a iha =>
      rw [List.cons_append] at done
      cases task with
      | leave parent? n =>
        cases stored : g.node? n with
        | none =>
          rw [run_leave_missing w g bound stored] at done ⊢
          exact iha done
        | some node =>
          rw [run_leave w g bound stored] at done ⊢
          exact iha done
      | enter parent? n =>
        cases stored : g.node? n with
        | none =>
          rw [run_missing w g bound stored] at done ⊢
          exact iha done
        | some node =>
          rcases answer : w.accepts (parent?.bind g.node?) node s with ⟨_ | _, s'⟩
          · rw [run_refused w g bound stored answer] at done ⊢
            exact iha done
          · cases bound with
            | zero =>
              rw [run_entered_zero w g stored answer] at done
              cases done
            | succ bound =>
              rw [run_entered w g bound stored answer] at done ⊢
              rw [← List.cons_append, ← List.append_assoc] at done
              obtain ⟨m, b, hb, first, rest⟩ := ih bound (Nat.lt_succ_self bound) done
              exact ⟨m, b, Nat.le_succ_of_le hb, first, rest⟩

/-- A run that ends has done what the recursive walk does. -/
theorem walks_of_run {parent? : Option NodeId} {ns : List NodeId} {s t : σ}
    (done : w.run g bound (ns.map (.enter parent?)) s = some t) : w.Walks g parent? ns s t := by
  induction bound using Nat.strongRecOn generalizing parent? ns s t with
  | ind bound ih =>
    induction ns generalizing s with
    | nil =>
      rw [List.map_nil, run_nil] at done
      cases done
      exact .nil
    | cons n ns ihns =>
      rw [List.map_cons] at done
      cases stored : g.node? n with
      | none =>
        rw [run_missing w g bound stored] at done
        exact .missing stored (ihns done)
      | some node =>
        rcases answer : w.accepts (parent?.bind g.node?) node s with ⟨_ | _, s'⟩
        · rw [run_refused w g bound stored answer] at done
          exact .refused stored answer (ihns done)
        · cases bound with
          | zero =>
            rw [run_entered_zero w g stored answer] at done
            cases done
          | succ bound =>
            rw [run_entered w g bound stored answer] at done
            obtain ⟨u, b, hb, below, rest⟩ := run_append done
            rw [run_leave w g b stored] at rest
            exact .entered stored answer (ih bound (Nat.lt_succ_self bound) below)
              (ih b (Nat.lt_succ_of_le hb) rest)

theorem walks_of_visit {root : NodeId} {s t : σ} (done : g.visit w bound root s = some t) :
    w.Walks g none [root] s t :=
  @walks_of_run σ w g bound none [root] s t done

/-! ## Completeness -/

/-- The tasks on top of a stack are worked off as the recursive walk does it, and then the others. -/
theorem Walks.run {parent? : Option NodeId} {ns : List NodeId} {s t : σ}
    (walk : w.Walks g parent? ns s t) :
    ∃ k, ∀ b tasks, w.run g (k + b) (ns.map (.enter parent?) ++ tasks) s = w.run g b tasks t := by
  induction walk with
  | nil => exact ⟨0, fun b tasks => by rw [Nat.zero_add, List.map_nil, List.nil_append]⟩
  | missing absent _ ih =>
    obtain ⟨k, rest⟩ := ih
    refine ⟨k, fun b tasks => ?_⟩
    rw [List.map_cons, List.cons_append, run_missing w g _ absent, rest]
  | refused stored answer _ ih =>
    obtain ⟨k, rest⟩ := ih
    refine ⟨k, fun b tasks => ?_⟩
    rw [List.map_cons, List.cons_append, run_refused w g _ stored answer, rest]
  | entered stored answer _ _ ihBelow ihRest =>
    obtain ⟨k, below⟩ := ihBelow
    obtain ⟨l, rest⟩ := ihRest
    refine ⟨k + l + 1, fun b tasks => ?_⟩
    have bound : k + l + 1 + b = k + (l + b) + 1 := by omega
    rw [List.map_cons, List.cons_append, bound, run_entered w g _ stored answer, below,
      run_leave w g _ stored, rest]

/-- A finite walk from a node is carried out under every sufficient bound. -/
theorem Walks.visit {root : NodeId} {s t : σ} (walk : w.Walks g none [root] s t) :
    ∃ bound, ∀ b, bound ≤ b → g.visit w b root s = some t := by
  obtain ⟨k, done⟩ := walk.run
  refine ⟨k, fun b hb => ?_⟩
  obtain ⟨c, rfl⟩ := Nat.exists_eq_add_of_le hb
  exact (done c []).trans (run_nil w g c t)

/-- What a walk from a node does is independent of the bound. -/
theorem visit_unique {b b' : Nat} {root : NodeId} {s t u : σ} (first : g.visit w b root s = some t)
    (second : g.visit w b' root s = some u) : t = u := by
  obtain ⟨bound, visit⟩ := (walks_of_visit first).visit
  obtain ⟨bound', visit'⟩ := (walks_of_visit second).visit
  have left := visit (max bound bound') (Nat.le_max_left ..)
  have right := visit' (max bound bound') (Nat.le_max_right ..)
  exact Option.some.inj (left.symm.trans right)

/-! ## Termination -/

/-- A run ends if a measure falls with every node that is entered and never rises otherwise. -/
theorem exists_run (measure : σ → Nat)
    (refuse : ∀ {parent? node s s'}, w.accepts parent? node s = (false, s') → measure s' ≤ measure s)
    (enter : ∀ {parent? n node s s'}, g.node? n = some node →
      w.accepts parent? node s = (true, s') → measure (w.pre parent? node s') < measure s)
    (leave : ∀ {parent? node s}, measure (w.post parent? node s) ≤ measure s)
    (tasks : List Task) {s : σ} (fits : measure s ≤ bound) :
    ∃ t, w.run g bound tasks s = some t := by
  induction bound using Nat.strongRecOn generalizing tasks s with
  | ind bound ih =>
    induction tasks generalizing s with
    | nil => exact ⟨s, run_nil w g bound s⟩
    | cons task tasks iht =>
      cases task with
      | leave parent? n =>
        cases stored : g.node? n with
        | none =>
          rw [run_leave_missing w g bound stored]
          exact iht fits
        | some node =>
          rw [run_leave w g bound stored]
          exact iht (Nat.le_trans leave fits)
      | enter parent? n =>
        cases stored : g.node? n with
        | none =>
          rw [run_missing w g bound stored]
          exact iht fits
        | some node =>
          rcases answer : w.accepts (parent?.bind g.node?) node s with ⟨_ | _, s'⟩
          · rw [run_refused w g bound stored answer]
            exact iht (Nat.le_trans (refuse answer) fits)
          · have falls := enter stored answer
            cases bound with
            | zero => omega
            | succ bound =>
              rw [run_entered w g bound stored answer]
              exact ih bound (by omega) _ (by omega)

end Walker

namespace Graph

/-! ## Entering every node once -/

/-- The number of stored nodes that have not been seen: a measure for walkers that enter no node
twice. -/
def unseen (g : Graph) (seen : NodeId → Bool) : Nat := (g.nodes.keys.filter fun n => !seen n).length

theorem unseen_le_nodeCount (g : Graph) (seen : NodeId → Bool) : g.unseen seen ≤ g.nodeCount := by
  have lengths : g.nodes.keys.length = g.nodeCount := Std.ExtTreeMap.length_keys
  exact lengths ▸ List.length_filter_le _ _

theorem unseen_le {g : Graph} {seen seen' : NodeId → Bool} (grows : ∀ n, seen n → seen' n) :
    g.unseen seen' ≤ g.unseen seen := by
  rw [unseen, unseen, ← List.countP_eq_length_filter, ← List.countP_eq_length_filter]
  refine List.countP_mono_left fun n _ unseen => ?_
  rw [Bool.not_eq_true', ← Bool.not_eq_true] at unseen ⊢
  exact fun h => unseen (grows n h)

theorem unseen_lt {g : Graph} {seen seen' : NodeId → Bool} (grows : ∀ n, seen n → seen' n)
    {n : NodeId} {node : Node} (stored : g.node? n = some node) (new : ¬ seen n) (now : seen' n) :
    g.unseen seen' < g.unseen seen := by
  have inner : (g.nodes.keys.filter fun n => !seen' n) =
      (g.nodes.keys.filter fun n => !seen n).filter fun n => !seen' n := by
    rw [List.filter_filter]
    refine List.filter_congr fun m _ => ?_
    cases h : seen m
    · simp
    · simp [grows m h]
  rw [unseen, unseen, inner, List.length_filter_lt_length_iff_exists]
  have key : n ∈ g.nodes.keys := by
    rw [Std.ExtTreeMap.mem_keys]
    exact Std.ExtTreeMap.mem_iff_isSome_getElem?.2 (congrArg Option.isSome stored)
  exact ⟨n, List.mem_filter.2 ⟨key, by simp [new]⟩, by simp [now]⟩

end Graph

namespace Walker

variable {σ : Type}

/-- A walker that marks the nodes it enters, and enters no marked node. -/
structure EntersOnce (w : Walker σ) (g : Graph) (marked : σ → NodeId → Bool) : Prop where
  unmarked : ∀ {parent? n node s s'}, g.node? n = some node →
    w.accepts parent? node s = (true, s') → ¬ marked s n
  marks : ∀ {parent? n node s s'}, g.node? n = some node →
    w.accepts parent? node s = (true, s') → marked (w.pre parent? node s') n
  accepts : ∀ {parent? node s s' m}, w.accepts parent? node s = (false, s') → marked s m → marked s' m
  pre : ∀ {parent? node s s' m}, w.accepts parent? node s = (true, s') → marked s m →
    marked (w.pre parent? node s') m
  post : ∀ {parent? node s m}, marked s m → marked (w.post parent? node s) m

/-- A walker that enters no node twice can walk from any root on any graph. -/
theorem EntersOnce.exists_visit {w : Walker σ} {g : Graph} {marked : σ → NodeId → Bool}
    (once : w.EntersOnce g marked) (root : NodeId) (s : σ) :
    ∃ t, g.visit w g.nodeCount root s = some t ∧ w.Walks g none [root] s t := by
  obtain ⟨t, done⟩ := exists_run (w := w) (g := g) (fun s => g.unseen (marked s))
    (fun answer => Graph.unseen_le fun _ => once.accepts answer)
    (fun stored answer => Graph.unseen_lt (fun _ => once.pre answer) stored
      (once.unmarked stored answer) (once.marks stored answer))
    (Graph.unseen_le fun _ => once.post) [.enter none root] (g.unseen_le_nodeCount (marked s))
  exact ⟨t, done, walks_of_visit done⟩

end Walker

end Dataflow
