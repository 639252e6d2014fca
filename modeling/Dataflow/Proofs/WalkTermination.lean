import Dataflow.Proofs.PostOrder
import Mathlib.Data.List.Perm.Subperm
import Mathlib.Logic.Function.Iterate

/-!
# Walks that end

In each turn the loop of a walk works off the task on top of its stack (`Walker.turn`). The loop has no
bound of its own, but it can go on only as long as nodes are accepted: every turn takes a task off the
stack, and only entering a node puts tasks on it. So it ends or accepts more nodes than any given
number (`Walker.settles`), and it ends on every graph if the walker refuses the nodes that it has
entered before, since it accepts every stored node at most once then
(`Walker.RefusesEntered.acceptsAtMost`).

What is called on the way is read off the recursion that the walk stands for: the calls before and
after the operands of a node enclose the calls made below it (`Nested`), and every operand of a node
that is entered is offered to the walker once (`Walker.Walks.transcript`).
-/

namespace Dataflow

/-- A call of a walker with its arguments, and with the answer where the walker is offered a node. -/
inductive Exchange where
  | offer (caller? : Option Node) (node : Node) (accepted : Bool)
  | pre (caller? : Option Node) (node : Node)
  | post (caller? : Option Node) (node : Node)

namespace Exchange

/-- Whether the walker is asked to enter a node. -/
def isOffer : Exchange → Bool
  | offer .. => true
  | _ => false

/-- The arguments of an offer that is accepted. -/
def accepted? : Exchange → Option (Option Node × Node)
  | offer caller? node true => some (caller?, node)
  | _ => none

/-- The arguments of a call on entering a node. -/
def pre? : Exchange → Option (Option Node × Node)
  | pre caller? node => some (caller?, node)
  | _ => none

/-- The arguments of a call on leaving a node. -/
def post? : Exchange → Option (Option Node × Node)
  | post caller? node => some (caller?, node)
  | _ => none

end Exchange

/-- The accepted offers among some calls. -/
def visits (calls : List Exchange) : List (Option Node × Node) := calls.filterMap Exchange.accepted?

@[simp] theorem visits_append (calls more : List Exchange) :
    visits (calls ++ more) = visits calls ++ visits more :=
  List.filterMap_append

@[simp] theorem visits_nil : visits [] = [] := rfl

@[simp] theorem visits_accepted (caller? : Option Node) (node : Node) (calls : List Exchange) :
    visits (.offer caller? node true :: calls) = (caller?, node) :: visits calls := rfl

@[simp] theorem visits_refused (caller? : Option Node) (node : Node) (calls : List Exchange) :
    visits (.offer caller? node false :: calls) = visits calls := rfl

@[simp] theorem visits_pre (caller? : Option Node) (node : Node) (calls : List Exchange) :
    visits (.pre caller? node :: calls) = visits calls := rfl

@[simp] theorem visits_post (caller? : Option Node) (node : Node) (calls : List Exchange) :
    visits (.post caller? node :: calls) = visits calls := rfl

/-! ## Nested calls -/

/-- The calls made at nodes that are met from `caller?`: an accepted offer is followed by the call on
entering the node, the nested calls made from the node and the call on leaving it, a refused offer by
neither. -/
inductive Nested : Option Node → List Exchange → Prop
  | nil {caller?} : Nested caller? []
  | refused {caller? node calls} (rest : Nested caller? calls) :
    Nested caller? (.offer caller? node false :: calls)
  | entered {caller? node inner calls} (below : Nested (some node) inner)
    (rest : Nested caller? calls) : Nested caller?
      (.offer caller? node true :: .pre caller? node :: (inner ++ .post caller? node :: calls))

/-- The nodes are entered as they are accepted. -/
theorem Nested.filterMap_pre? {caller? : Option Node} {calls : List Exchange}
    (nested : Nested caller? calls) : calls.filterMap Exchange.pre? = visits calls := by
  induction nested with
  | nil => rfl
  | refused _ ih => exact ih
  | entered _ _ ihBelow ihRest =>
    simp [List.filterMap_cons, Exchange.pre?, ihBelow, ihRest]

/-- Every node that is accepted is left once. -/
theorem Nested.filterMap_post?_perm {caller? : Option Node} {calls : List Exchange}
    (nested : Nested caller? calls) : (calls.filterMap Exchange.post?).Perm (visits calls) := by
  induction nested with
  | nil => exact .nil
  | refused _ ih => exact ih
  | entered _ _ ihBelow ihRest =>
    simp only [Exchange.post?, List.filterMap_cons, List.filterMap_append, visits_accepted, visits_pre,
      visits_append, visits_post]
    exact List.perm_middle.trans ((ihBelow.append ihRest).cons _)

/-! ## The loop -/

theorem Node.length_operandNodes (n : Node) : n.operandNodes.length = n.operands.length := by
  rw [operandNodes, List.filterMap_length_eq_length]
  rintro ⟨slot, v⟩ h
  cases v with
  | null => exact absurd rfl (Node.mem_operands.1 h).1
  | result n i => rfl

/-- A walk under way: the stack of tasks, the state of the walker and the calls made so far. -/
structure Pass (σ : Type) where
  tasks : List Task
  state : σ
  calls : List Exchange

namespace Walker

variable {σ : Type}

/-- Works off the task on top of the stack. Entering a node puts a task for each of its operands on
the stack, and below them that of leaving the node. -/
def turn (w : Walker σ) (g : Graph) (p : Pass σ) : Pass σ :=
  match p.tasks with
  | [] => p
  | .leave parent? n :: tasks =>
    match g.node? n with
    | none => { p with tasks }
    | some node =>
      ⟨tasks, w.post (parent?.bind g.node?) node p.state,
        p.calls ++ [.post (parent?.bind g.node?) node]⟩
  | .enter parent? n :: tasks =>
    match g.node? n with
    | none => { p with tasks }
    | some node =>
      match w.accepts (parent?.bind g.node?) node p.state with
      | (false, s) => ⟨tasks, s, p.calls ++ [.offer (parent?.bind g.node?) node false]⟩
      | (true, s) =>
        ⟨node.operandNodes.map (.enter (some n)) ++ .leave parent? n :: tasks,
          w.pre (parent?.bind g.node?) node s,
          p.calls ++ [.offer (parent?.bind g.node?) node true, .pre (parent?.bind g.node?) node]⟩

/-- The walk from `root` after a number of turns. -/
def passAfter (w : Walker σ) (g : Graph) (root : NodeId) (s : σ) (turns : Nat) : Pass σ :=
  (w.turn g)^[turns] ⟨[.enter none root], s, []⟩

theorem passAfter_succ (w : Walker σ) (g : Graph) (root : NodeId) (s : σ) (turns : Nat) :
    w.passAfter g root s (turns + 1) = w.turn g (w.passAfter g root s turns) :=
  Function.iterate_succ_apply' ..

/-- However far the walk from `root` gets, the walker accepts at most `limit` offers. -/
def AcceptsAtMost (w : Walker σ) (g : Graph) (root : NodeId) (s : σ) (limit : Nat) : Prop :=
  ∀ turns, (visits (w.passAfter g root s turns).calls).length ≤ limit

/-- However far the walk from `root` gets, the walker refuses the nodes that it has entered. -/
def RefusesEntered (w : Walker σ) (g : Graph) (root : NodeId) (s : σ) : Prop :=
  ∀ turns caller? node, .pre caller? node ∈ (w.passAfter g root s turns).calls →
    ∀ caller?', (w.accepts caller?' node (w.passAfter g root s turns).state).1 = false

/-- The walker that also keeps a transcript of the calls made of it and of its answers. -/
def transcribed (w : Walker σ) : Walker (σ × List Exchange) where
  accepts caller? node s :=
    let (answer, s') := w.accepts caller? node s.1
    (answer, s', s.2 ++ [.offer caller? node answer])
  pre caller? node s := (w.pre caller? node s.1, s.2 ++ [.pre caller? node])
  post caller? node s := (w.post caller? node s.1, s.2 ++ [.post caller? node])

variable {w : Walker σ} {g : Graph} {s s' : σ} {b b' : Nat} {p q : Pass σ}

theorem transcribed_accepts {caller? : Option Node} {node : Node} {answer : Bool}
    (accepts : w.accepts caller? node s = (answer, s')) (log : List Exchange) :
    w.transcribed.accepts caller? node (s, log) =
      (answer, s', log ++ [.offer caller? node answer]) := by
  simp only [transcribed, accepts]

/-- What one turn does: nothing but taking off a task, or leaving a node, or offering a node that is
refused or entered. -/
theorem turn_cases (w : Walker σ) (g : Graph) (p : Pass σ) : ∃ tasks,
    w.turn g p = ⟨tasks, p.state, p.calls⟩ ∨
    (∃ caller? node,
      w.turn g p = ⟨tasks, w.post caller? node p.state, p.calls ++ [.post caller? node]⟩) ∨
    (∃ caller? node s, w.accepts caller? node p.state = (false, s) ∧
      w.turn g p = ⟨tasks, s, p.calls ++ [.offer caller? node false]⟩) ∨
    ∃ caller? n node s, g.node? n = some node ∧ w.accepts caller? node p.state = (true, s) ∧
      w.turn g p = ⟨tasks, w.pre caller? node s,
        p.calls ++ [.offer caller? node true, .pre caller? node]⟩ := by
  obtain ⟨tasks, state, calls⟩ := p
  match tasks with
  | [] => exact ⟨[], .inl rfl⟩
  | .leave parent? n :: tasks =>
    cases stored : g.node? n with
    | none => exact ⟨tasks, .inl (by simp only [turn, stored])⟩
    | some node => exact ⟨tasks, .inr (.inl ⟨parent?.bind g.node?, node, by simp only [turn, stored]⟩)⟩
  | .enter parent? n :: tasks =>
    cases stored : g.node? n with
    | none => exact ⟨tasks, .inl (by simp only [turn, stored])⟩
    | some node =>
      rcases answer : w.accepts (parent?.bind g.node?) node state with ⟨_ | _, s⟩
      · exact ⟨tasks, .inr (.inr (.inl ⟨_, node, s, answer, by simp only [turn, stored, answer]⟩))⟩
      · exact ⟨_, .inr (.inr (.inr ⟨_, n, node, s, stored, answer,
          by simp only [turn, stored, answer]; rfl⟩))⟩

/-! ## Ending -/

/-- The loop ends as the run under the bound does, with the same calls, or it gets so far that more
nodes have been accepted than the bound allows. -/
def Settles (w : Walker σ) (g : Graph) (bound : Nat) (p : Pass σ) : Prop :=
  (∃ turns t calls, (w.turn g)^[turns] p = ⟨[], t, calls⟩ ∧
    w.run g bound p.tasks p.state = some t ∧
    w.transcribed.run g bound p.tasks (p.state, p.calls) = some (t, calls)) ∨
  ∃ turns, (visits p.calls).length + bound < (visits ((w.turn g)^[turns] p).calls).length

/-- A walk settles as it does after one turn. -/
theorem Settles.of_turn (turn : w.turn g p = q)
    (run : w.run g b p.tasks p.state = w.run g b' q.tasks q.state)
    (log : w.transcribed.run g b p.tasks (p.state, p.calls) =
      w.transcribed.run g b' q.tasks (q.state, q.calls))
    (accepted : (visits p.calls).length + b = (visits q.calls).length + b')
    (rest : w.Settles g b' q) : w.Settles g b p := by
  have next (k : Nat) : (w.turn g)^[k + 1] p = (w.turn g)^[k] q := by
    rw [Function.iterate_succ_apply, turn]
  rcases rest with ⟨k, t, calls, ends, done, logged⟩ | ⟨k, more⟩
  · exact .inl ⟨k + 1, t, calls, (next k).trans ends, run.trans done, log.trans logged⟩
  · exact .inr ⟨k + 1, by rw [next, accepted]; exact more⟩

/-- Every walk ends or accepts more nodes than the bound allows: the tasks on the stack are worked off
in finitely many turns up to the next node that is accepted. -/
theorem settles (w : Walker σ) (g : Graph) (bound : Nat) (p : Pass σ) : w.Settles g bound p := by
  obtain ⟨tasks, s, calls⟩ := p
  induction bound using Nat.strongRecOn generalizing tasks s calls with
  | ind bound ih =>
    induction tasks generalizing s calls with
    | nil => exact .inl ⟨0, s, calls, rfl, run_nil w g bound s, run_nil w.transcribed g bound _⟩
    | cons task tasks iht =>
      cases task with
      | leave parent? n =>
        cases stored : g.node? n with
        | none =>
          refine .of_turn (q := ⟨tasks, s, calls⟩) (by simp only [turn, stored])
            (run_leave_missing w g bound stored ..) (run_leave_missing w.transcribed g bound stored ..)
            rfl (iht s calls)
        | some node =>
          refine .of_turn (q := ⟨tasks, _, _⟩) (by simp only [turn, stored])
            (run_leave w g bound stored ..) (run_leave w.transcribed g bound stored ..) ?_ (iht _ _)
          simp
      | enter parent? n =>
        cases stored : g.node? n with
        | none =>
          refine .of_turn (q := ⟨tasks, s, calls⟩) (by simp only [turn, stored])
            (run_missing w g bound stored ..) (run_missing w.transcribed g bound stored ..)
            rfl (iht s calls)
        | some node =>
          rcases answer : w.accepts (parent?.bind g.node?) node s with ⟨_ | _, s'⟩
          · refine .of_turn (q := ⟨tasks, s', _⟩) (by simp only [turn, stored, answer])
              (run_refused w g bound stored answer _)
              (run_refused w.transcribed g bound stored (transcribed_accepts answer calls) _) ?_
              (iht _ _)
            simp
          · cases bound with
            | zero =>
              refine .inr ⟨1, ?_⟩
              simp [turn, stored, answer]
            | succ bound =>
              have step : w.turn g ⟨.enter parent? n :: tasks, s, calls⟩ =
                  ⟨node.operandNodes.map (.enter (some n)) ++ .leave parent? n :: tasks,
                    w.pre (parent?.bind g.node?) node s', calls ++
                      [.offer (parent?.bind g.node?) node true,
                        .pre (parent?.bind g.node?) node]⟩ := by
                simp only [turn, stored, answer]
              refine .of_turn step (run_entered w g bound stored answer _) ?_ ?_
                (ih bound (Nat.lt_succ_self bound) _ _ _)
              · rw [run_entered w.transcribed g bound stored (transcribed_accepts answer calls)]
                simp only [transcribed, List.append_assoc, List.singleton_append]
              · simp
                omega

/-! ## What is called -/

/-- The calls of a walk are nested, and the walker is offered the nodes that the walk starts from and
the operands of the nodes that it enters. -/
theorem Walks.transcript {parent? : Option NodeId} {ns : List NodeId} {s t : σ × List Exchange}
    (walk : w.transcribed.Walks g parent? ns s t) (here : ∀ n ∈ ns, g.contains n)
    (closed : ∀ n node, g.node? n = some node → ∀ m ∈ node.operandNodes, g.contains m) :
    ∃ calls, t.2 = s.2 ++ calls ∧ Nested (parent?.bind g.node?) calls ∧
      calls.countP Exchange.isOffer =
        ns.length + ((visits calls).map fun visit => visit.2.operands.length).sum := by
  induction walk with
  | nil => exact ⟨[], (List.append_nil _).symm, .nil, rfl⟩
  | missing absent _ _ =>
    exact absurd (here _ (List.mem_cons_self ..)) (Graph.not_contains_iff.2 absent)
  | @refused parent? n _ s _ node _ stored answer _ ih =>
    obtain ⟨calls, log, nested, count⟩ := ih fun m hm => here m (List.mem_cons_of_mem _ hm)
    simp only [transcribed, Prod.mk.injEq] at answer
    obtain ⟨refused, rfl⟩ := answer
    refine ⟨.offer (parent?.bind g.node?) node false :: calls, log.trans ?_, .refused nested, ?_⟩
    · rw [refused, List.append_assoc, List.singleton_append]
    · simp [List.countP_cons, Exchange.isOffer, count]
      omega
  | @entered _ n _ s _ node _ _ stored answer _ _ ihBelow ihRest =>
    obtain ⟨inner, logBelow, below, countBelow⟩ := ihBelow (closed n node stored)
    obtain ⟨calls, log, nested, count⟩ := ihRest fun m hm => here m (List.mem_cons_of_mem _ hm)
    simp only [transcribed, Prod.mk.injEq] at answer
    obtain ⟨accepted, rfl⟩ := answer
    rw [Option.bind_some, stored] at below
    refine ⟨_, log.trans ?_, .entered below nested, ?_⟩
    · simp [transcribed, logBelow, accepted]
    · simp [List.countP_cons, Exchange.isOffer, count, countBelow, Node.length_operandNodes]
      omega

/-! ## Walkers that refuse the nodes that they have entered -/

theorem RefusesEntered.visits_nodup {root : NodeId} (refuses : w.RefusesEntered g root s)
    (own : g.Owned) (turns : Nat) :
    ((visits (w.passAfter g root s turns).calls).map fun visit => visit.2.id).Nodup ∧
      ∀ visit ∈ visits (w.passAfter g root s turns).calls, g.node? visit.2.id = some visit.2 ∧
        .pre visit.1 visit.2 ∈ (w.passAfter g root s turns).calls := by
  induction turns with
  | zero => exact ⟨List.nodup_nil, fun visit h => absurd h List.not_mem_nil⟩
  | succ turns ih =>
    have refuses := refuses turns
    rw [passAfter_succ]
    generalize w.passAfter g root s turns = p at ih refuses ⊢
    obtain ⟨nodup, entered⟩ := ih
    obtain ⟨tasks, next | ⟨caller?, node, next⟩ | ⟨caller?, node, s', -, next⟩ |
      ⟨caller?, n, node, s', stored, answer, next⟩⟩ := turn_cases w g p <;> rw [next]
    · exact ⟨nodup, entered⟩
    · simp only [visits_append, visits_post, visits_nil, List.append_nil, List.mem_append]
      exact ⟨nodup, fun visit h => (entered visit h).imp_right .inl⟩
    · simp only [visits_append, visits_refused, visits_nil, List.append_nil, List.mem_append]
      exact ⟨nodup, fun visit h => (entered visit h).imp_right .inl⟩
    · have id := own.node_id stored
      simp only [visits_append, visits_accepted, visits_pre, visits_nil, List.map_append,
        List.mem_append, List.mem_singleton]
      refine ⟨List.nodup_append.2 ⟨nodup, List.nodup_singleton _, ?_⟩, ?_⟩
      · rintro a ha b hb rfl
        obtain ⟨visit, hv, same⟩ := List.mem_map.1 ha
        obtain ⟨found, pre⟩ := entered visit hv
        obtain rfl : a = node.id := List.mem_singleton.1 hb
        rw [same, id, stored, Option.some.injEq] at found
        have refused := refuses visit.1 visit.2 pre caller?
        rw [← found, answer] at refused
        cases refused
      · rintro visit (h | rfl)
        · exact (entered visit h).imp_right .inl
        · exact ⟨id.symm ▸ stored, .inr (List.mem_cons_of_mem _ (List.mem_singleton_self _))⟩

/-- A walker that refuses the nodes that it has entered accepts no more nodes than are stored. -/
theorem RefusesEntered.acceptsAtMost {root : NodeId} (refuses : w.RefusesEntered g root s)
    (own : g.Owned) : w.AcceptsAtMost g root s g.nodeCount := by
  intro turns
  obtain ⟨nodup, entered⟩ := refuses.visits_nodup own turns
  have keys : g.nodes.keys.length = g.nodeCount := Std.ExtTreeMap.length_keys
  have listed : ((visits (w.passAfter g root s turns).calls).map fun visit => visit.2.id) ⊆
      g.nodes.keys := by
    intro n hn
    obtain ⟨visit, hv, rfl⟩ := List.mem_map.1 hn
    rw [Std.ExtTreeMap.mem_keys]
    exact Std.ExtTreeMap.mem_iff_isSome_getElem?.2 (congrArg Option.isSome (entered visit hv).1)
  have fits := (List.subperm_of_subset nodup listed).length_le
  rwa [List.length_map, keys] at fits

end Walker

namespace PostOrder

/-- A post order marks the nodes that it enters, and keeps the marks. -/
theorem visited_of_pre {scope? : Option FuncId} {g : Graph} {root : NodeId} {s : PostOrder}
    {turns : Nat} {caller? : Option Node} {node : Node}
    (entered : .pre caller? node ∈ ((walker scope?).passAfter g root s turns).calls) :
    node.id ∈ ((walker scope?).passAfter g root s turns).state.visited := by
  induction turns generalizing caller? node with
  | zero => cases entered
  | succ turns ih =>
    rw [Walker.passAfter_succ] at entered ⊢
    generalize (walker scope?).passAfter g root s turns = p at ih entered ⊢
    obtain ⟨tasks, next | ⟨_, _, next⟩ | ⟨_, _, s', answer, next⟩ | ⟨_, _, _, s', -, answer, next⟩⟩ :=
      Walker.turn_cases (walker scope?) g p <;> rw [next] at entered ⊢
    · exact ih entered
    · rw [List.mem_append, List.mem_singleton] at entered
      exact ih (entered.resolve_right Exchange.noConfusion)
    · obtain ⟨rfl, -⟩ := accepts_eq answer
      rw [List.mem_append, List.mem_singleton] at entered
      exact ih (entered.resolve_right Exchange.noConfusion)
    · obtain ⟨rfl, -⟩ := accepts_eq answer
      simp only [List.mem_append, List.mem_cons, List.not_mem_nil, or_false, reduceCtorEq, false_or,
        Exchange.pre.injEq] at entered
      rcases entered with before | ⟨rfl, rfl⟩
      · exact Std.ExtTreeSet.mem_insert.2 (.inr (ih before))
      · exact Std.ExtTreeSet.mem_insert.2 (.inl (NodeId.compare_eq_iff.2 rfl))

/-- A post order refuses the nodes that it has entered. -/
theorem refusesEntered (scope? : Option FuncId) (g : Graph) (root : NodeId) (s : PostOrder) :
    (walker scope?).RefusesEntered g root s := by
  intro turns caller? node entered caller?'
  rcases answer : (walker scope?).accepts caller?' node
    ((walker scope?).passAfter g root s turns).state with ⟨_ | _, s'⟩
  · rfl
  · exact absurd (visited_of_pre entered) ((accepts_eq answer).2.1 rfl).2

end PostOrder

namespace Workspace

/-- A walk of a reachable workspace from a stored root ends, on cyclic graphs too, if there is a number
of nodes that the walker never gets beyond in accepting them. The loop then ends in the same state and
with the same calls as the walk under that bound or a larger one. The walker is offered the root and
the operands of every node that it accepts, and the calls on entering and on leaving the accepted nodes
are nested. The number of stored nodes is such a bound for a walker that refuses the nodes that it has
entered, as a post order does. -/
theorem Reachable.visit_ends {w : Workspace} (reach : w.Reachable) {root : NodeId}
    (here : w.graph.contains root) {σ : Type} (walker : Walker σ) (s : σ) :
    (∀ bound, walker.AcceptsAtMost w.graph root s bound → ∃ turns t calls,
      walker.passAfter w.graph root s turns = ⟨[], t, calls⟩ ∧
      (∀ b, bound ≤ b → w.graph.visit walker b root s = some t ∧
        w.graph.visit walker.transcribed b root (s, []) = some (t, calls)) ∧
      calls.countP Exchange.isOffer =
        1 + ((visits calls).map fun visit => visit.2.operands.length).sum ∧
      Nested none calls ∧ calls.filterMap Exchange.pre? = visits calls ∧
      (calls.filterMap Exchange.post?).Perm (visits calls)) ∧
    (walker.RefusesEntered w.graph root s →
      walker.AcceptsAtMost w.graph root s w.graph.nodeCount) ∧
    ∀ scope? order, (PostOrder.walker scope?).RefusesEntered w.graph root order := by
  have own := reach.consistent.coherent.owned
  have sym := reach.consistent.coherent.symmetric
  refine ⟨fun bound limit => ?_, fun refuses => refuses.acceptsAtMost own,
    fun scope? order => PostOrder.refusesEntered scope? w.graph root order⟩
  have ends (b : Nat) (hb : bound ≤ b) : ∃ turns t calls,
      walker.passAfter w.graph root s turns = ⟨[], t, calls⟩ ∧
      w.graph.visit walker b root s = some t ∧
      w.graph.visit walker.transcribed b root (s, []) = some (t, calls) := by
    rcases walker.settles w.graph b ⟨[.enter none root], s, []⟩ with ends | ⟨turns, more⟩
    · exact ends
    · have few := limit turns
      rw [Walker.passAfter] at few
      simp only [visits_nil, List.length_nil] at more
      omega
  obtain ⟨turns, t, calls, done, -, logged⟩ := ends bound (Nat.le_refl bound)
  have closed (n : NodeId) (node : Node) (stored : w.graph.node? n = some node) :
      ∀ m ∈ node.operandNodes, w.graph.contains m := by
    intro m hm
    obtain ⟨slot, v, read, names⟩ := (Graph.mem_operandNodes stored).1 hm
    exact sym.readable read m names
  obtain ⟨_, rfl, nested, count⟩ := (Walker.walks_of_visit logged).transcript
    (fun n hn => List.mem_singleton.1 hn ▸ here) closed
  refine ⟨turns, t, _, done, fun b hb => ?_, count, nested, nested.filterMap_pre?,
    nested.filterMap_post?_perm⟩
  obtain ⟨-, t', calls', -, plain', logged'⟩ := ends b hb
  obtain ⟨rfl, rfl⟩ := Prod.mk.inj (Walker.visit_unique logged logged')
  exact ⟨plain', logged'⟩

theorem visit_ends_tangle :
    let g := (empty.run tangle).graph
    let walker := PostOrder.walker none
    (empty.run tangle).Reachable ∧ g.contains ⟨1⟩ ∧
      walker.AcceptsAtMost g ⟨1⟩ {} g.nodeCount ∧
      ∃ turns t calls, walker.passAfter g ⟨1⟩ {} turns = ⟨[], t, calls⟩ ∧
        t.order.toList = [⟨3⟩, ⟨0⟩, ⟨1⟩] ∧ Nested none calls ∧
        ((visits calls).map fun visit => visit.2.operands.length) = [2, 2, 0] ∧
        calls.countP Exchange.isOffer = 5 := by
  intro g walker
  have here : g.contains ⟨1⟩ := by decide
  obtain ⟨ends, fits, refuses⟩ := Reachable.visit_ends reachable_tangle here walker {}
  have limit := fits (refuses none {})
  obtain ⟨turns, t, calls, done, visit, count, nested, -, -⟩ := ends _ limit
  have run : (g.visit walker.transcribed g.nodeCount ⟨1⟩ ({}, [])).map (fun r =>
      (r.1.order.toList, (visits r.2).map fun visit => visit.2.operands.length)) =
        some ([⟨3⟩, ⟨0⟩, ⟨1⟩], [2, 2, 0]) := by decide +kernel
  rw [(visit _ (Nat.le_refl _)).2, Option.map_some, Option.some.injEq, Prod.mk.injEq] at run
  rw [run.2] at count
  exact ⟨reachable_tangle, here, limit, turns, t, calls, done, run.1, nested, run.2, count⟩

end Workspace

end Dataflow
