import Dataflow.Proofs.CycleSearch
import Dataflow.Proofs.History
import Mathlib.Data.Set.Finite.List
import Mathlib.Order.WellFounded

/-!
# Walks refine the recursion

The recursion that a walk stands for is written down as a relation with the calls it makes
(`Walker.Recurses`): the operands of a node are walked from while the call at the node is pending,
and the node they are reached from is at hand. The walk on a stack makes the same calls and ends in
the same state exactly when the recursion is finite. To observe the calls, a walker is made to log
them (`Walker.logged`).

With a walker that accepts every node the calls before and after the operands are those of the
operand paths from the root, one each. Paths are followed along slots, so that a node that reads another
one twice has two paths to it. The paths of a list of walks are described by where they start, and a
path from a node ends there or goes on along one of its operands (`Graph.arrives_iff`), which is what
the recursion does. So the calls of a recursion stay in step with the paths (`Graph.Covers`).
-/

namespace Dataflow

open Relation

/-! ## The recursion -/

/-- A call of a walker and its arguments. -/
inductive Callback where
  | accepts (caller? : Option Node) (node : Node)
  | pre (caller? : Option Node) (node : Node)
  | post (caller? : Option Node) (node : Node)

namespace Callback

/-- The arguments of a call on entering a node. -/
def pre? : Callback → Option (Option Node × Node)
  | pre caller? node => some (caller?, node)
  | _ => none

/-- The arguments of a call on leaving a node. -/
def post? : Callback → Option (Option Node × Node)
  | post caller? node => some (caller?, node)
  | _ => none

end Callback

namespace Walker

variable {σ : Type}

/-- `w.Recurses g caller? ns s calls t`: walking recursively from the nodes `ns`, which are met from
`caller?`, makes the calls `calls` and leads from state `s` to state `t`. -/
inductive Recurses (w : Walker σ) (g : Graph) :
    Option Node → List NodeId → σ → List Callback → σ → Prop
  | nil {caller? s} : Recurses w g caller? [] s [] s
  | missing {caller? n ns s calls t} (absent : g.node? n = none)
    (rest : Recurses w g caller? ns s calls t) : Recurses w g caller? (n :: ns) s calls t
  | refused {caller? n ns s calls t node s'} (stored : g.node? n = some node)
    (answer : w.accepts caller? node s = (false, s')) (rest : Recurses w g caller? ns s' calls t) :
    Recurses w g caller? (n :: ns) s (.accepts caller? node :: calls) t
  | entered {caller? n ns s inner calls t node s' u} (stored : g.node? n = some node)
    (answer : w.accepts caller? node s = (true, s'))
    (below : Recurses w g (some node)
      ((node.predicate.value :: node.inputValues).filterMap Value.node?)
      (w.pre caller? node s') inner u)
    (rest : Recurses w g caller? ns (w.post caller? node u) calls t) :
    Recurses w g caller? (n :: ns) s
      (.accepts caller? node :: .pre caller? node :: (inner ++ .post caller? node :: calls)) t

/-- The walker that also logs the calls that are made of it. -/
def logged (w : Walker σ) : Walker (σ × List Callback) where
  accepts caller? node s :=
    let (answer, s') := w.accepts caller? node s.1
    (answer, s', s.2 ++ [.accepts caller? node])
  pre caller? node s := (w.pre caller? node s.1, s.2 ++ [.pre caller? node])
  post caller? node s := (w.post caller? node s.1, s.2 ++ [.post caller? node])

end Walker

theorem Node.operandNodes_eq (n : Node) :
    n.operandNodes = (n.predicate.value :: n.inputValues).filterMap Value.node? := by
  have values : n.slotOperands.map (fun e => e.2.value) = n.predicate.value :: n.inputValues := by
    rw [slotOperands, List.map_cons, inputValues]
    refine congrArg _ (List.ext_getElem? fun i => ?_)
    simp only [List.getElem?_map, List.getElem?_mapIdx, Option.map_map]
    rfl
  rw [← values, List.filterMap_map, operandNodes, operands, List.filterMap_filterMap]
  refine List.filterMap_congr fun e _ => ?_
  obtain ⟨s, o⟩ := e
  cases hv : o.value <;> simp [hv, Value.isNull, Value.node?]

namespace Walker

variable {σ : Type} {w : Walker σ} {g : Graph} {ns : List NodeId} {s t : σ} {calls : List Callback}

theorem logged_accepts {caller? : Option Node} {node : Node} {b : Bool} {s' : σ}
    (answer : w.accepts caller? node s = (b, s')) (log : List Callback) :
    w.logged.accepts caller? node (s, log) = (b, s', log ++ [.accepts caller? node]) := by
  simp only [logged, answer]

/-- The recursion is a walk in which the nodes met from are looked up again. -/
theorem Recurses.walks {caller? : Option Node} (walk : w.Recurses g caller? ns s calls t)
    {parent? : Option NodeId} (parent : parent?.bind g.node? = caller?) :
    w.Walks g parent? ns s t := by
  induction walk generalizing parent? with
  | nil => exact .nil
  | missing absent _ ih => exact .missing absent (ih parent)
  | refused stored answer _ ih =>
    subst parent
    exact .refused stored answer (ih rfl)
  | entered stored answer _ _ ihBelow ihRest =>
    subst parent
    refine .entered stored answer ?_ (ihRest rfl)
    rw [Node.operandNodes_eq]
    exact ihBelow stored

/-- A walker that logs its calls is called as the recursion calls it. -/
theorem Recurses.walks_logged {caller? : Option Node} (walk : w.Recurses g caller? ns s calls t)
    {parent? : Option NodeId} (parent : parent?.bind g.node? = caller?) (log : List Callback) :
    w.logged.Walks g parent? ns (s, log) (t, log ++ calls) := by
  induction walk generalizing parent? log with
  | nil =>
    rw [List.append_nil]
    exact .nil
  | missing absent _ ih => exact .missing absent (ih parent log)
  | refused stored answer _ ih =>
    subst parent
    rw [List.append_cons]
    exact .refused stored (logged_accepts answer log) (ih rfl _)
  | @entered caller? n _ _ inner _ _ node _ _ stored answer _ _ ihBelow ihRest =>
    subst parent
    have below := @ihBelow (some n) stored
      (log ++ [.accepts (parent?.bind g.node?) node] ++ [.pre (parent?.bind g.node?) node])
    rw [← Node.operandNodes_eq] at below
    rw [List.append_cons, List.append_cons, ← List.append_assoc, List.append_cons]
    exact .entered stored (logged_accepts answer log) below (ihRest rfl _)

theorem Walks.recurses {parent? : Option NodeId} (walk : w.Walks g parent? ns s t) :
    ∃ calls, w.Recurses g (parent?.bind g.node?) ns s calls t := by
  induction walk with
  | nil => exact ⟨[], .nil⟩
  | missing absent _ ih =>
    obtain ⟨calls, rest⟩ := ih
    exact ⟨calls, .missing absent rest⟩
  | refused stored answer _ ih =>
    obtain ⟨calls, rest⟩ := ih
    exact ⟨_, .refused stored answer rest⟩
  | entered stored answer _ _ ihBelow ihRest =>
    obtain ⟨inner, below⟩ := ihBelow
    obtain ⟨calls, rest⟩ := ihRest
    rw [Node.operandNodes_eq, Option.bind_some, stored] at below
    exact ⟨_, .entered stored answer below rest⟩

end Walker

/-! ## Operand paths -/

namespace Node

/-- The slots that read a node, with the nodes that they read. -/
def edges (n : Node) : List (Slot × NodeId) :=
  n.operands.filterMap fun e => e.2.node?.map fun m => (e.1, m)

theorem map_snd_edges (n : Node) : n.edges.map (·.2) = n.operandNodes := by
  rw [edges, List.map_filterMap, operandNodes]
  refine List.filterMap_congr fun e _ => ?_
  rw [Option.map_map]
  exact Option.map_id'

/-- The slots followed to the operands of a node to which the slots `path` lead, with the nodes that
they lead on to. -/
def edgesFrom (n : Node) (path : List Slot) : List (List Slot × NodeId) :=
  n.edges.map fun e => (path ++ [e.1], e.2)

theorem map_snd_edgesFrom (n : Node) (path : List Slot) :
    (n.edgesFrom path).map (·.2) = n.operandNodes := by
  rw [edgesFrom, List.map_map, ← map_snd_edges]
  rfl

end Node

/-- A place that a walk comes to: the slots that lead there, the node that they lead to and the node
before it. -/
structure Arrival where
  path : List Slot
  caller? : Option Node
  node : Node

namespace Graph

/-- `g.Path caller? n path caller?' node'`: following the slots `path` from `n`, which is met from
`caller?`, leads to the stored node `node'`, which is met from `caller?'`. -/
inductive Path (g : Graph) : Option Node → NodeId → List Slot → Option Node → Node → Prop
  | nil {caller? n node} (stored : g.node? n = some node) : Path g caller? n [] caller? node
  | cons {caller? n node slot v m path caller?' node'} (stored : g.node? n = some node)
    (read : g.reads? n slot = some v) (target : v.node? = some m)
    (rest : Path g (some node) m path caller?' node') :
    Path g caller? n (slot :: path) caller?' node'

theorem mem_edges {g : Graph} {n : NodeId} {node : Node} (stored : g.node? n = some node)
    {slot : Slot} {m : NodeId} :
    (slot, m) ∈ node.edges ↔ ∃ v, g.reads? n slot = some v ∧ v.node? = some m := by
  simp only [Node.edges, List.mem_filterMap, Prod.exists, Node.mem_operands, Option.map_eq_some_iff,
    Prod.mk.injEq, reads?_iff_of_stored stored]
  constructor
  · rintro ⟨_, v, ⟨-, held⟩, m', target, rfl, rfl⟩
    exact ⟨v, held, target⟩
  · rintro ⟨v, held, target⟩
    refine ⟨slot, v, ⟨?_, held⟩, m, target, rfl, rfl⟩
    rintro rfl
    cases target

/-- `g.Arrives caller? start a`: a path that begins with `start`, the slots followed so far and the
node they have led to, ends at `a`. -/
def Arrives (g : Graph) (caller? : Option Node) (start : List Slot × NodeId) (a : Arrival) : Prop :=
  ∃ rest, a.path = start.1 ++ rest ∧ g.Path caller? start.2 rest a.caller? a.node

/-- Two starts that no path has in common. -/
def Apart (e e' : List Slot × NodeId) : Prop := ∀ p p', e.1 ++ p ≠ e'.1 ++ p'

variable {g : Graph} {caller? caller?' : Option Node} {e e' : List Slot × NodeId} {a a' : Arrival}
  {path : List Slot} {n : NodeId} {node : Node}

theorem not_arrives_of_missing (absent : g.node? n = none) : ¬ g.Arrives caller? (path, n) a := by
  rintro ⟨rest, -, ⟨stored⟩ | ⟨stored, -⟩⟩
  all_goals cases absent.symm.trans stored

/-- A path from a stored node ends there or goes on along one of its operands. -/
theorem arrives_iff (stored : g.node? n = some node) :
    g.Arrives caller? (path, n) a ↔ a = ⟨path, caller?, node⟩ ∨
      ∃ e ∈ node.edgesFrom path, g.Arrives (some node) e a := by
  obtain ⟨p, caller?', node'⟩ := a
  constructor
  · rintro ⟨rest, rfl, ⟨stored'⟩ | ⟨stored', read, target, rest⟩⟩
    all_goals obtain rfl := Option.some.inj (stored.symm.trans stored')
    · exact .inl (by rw [List.append_nil])
    · exact .inr ⟨_, List.mem_map_of_mem ((mem_edges stored).2 ⟨_, read, target⟩), _,
        List.append_cons .., rest⟩
  · rintro (same | ⟨e, he, rest, rfl, below⟩)
    · cases same
      exact ⟨[], (List.append_nil _).symm, .nil stored⟩
    · obtain ⟨⟨slot, m⟩, hm, rfl⟩ := List.mem_map.1 he
      obtain ⟨v, read, target⟩ := (mem_edges stored).1 hm
      exact ⟨slot :: rest, List.append_assoc .., .cons stored read target below⟩

theorem Apart.path_ne (apart : Apart e e') (h : g.Arrives caller? e a)
    (h' : g.Arrives caller?' e' a') : a.path ≠ a'.path := by
  obtain ⟨rest, ha, -⟩ := h
  obtain ⟨rest', ha', -⟩ := h'
  rw [ha, ha']
  exact apart rest rest'

theorem Apart.of_edgesFrom (apart : Apart (path, n) e') (he : e ∈ node.edgesFrom path) :
    Apart e e' := by
  obtain ⟨edge, -, rfl⟩ := List.mem_map.1 he
  intro p p'
  rw [← List.append_cons]
  exact apart _ p'

theorem path_ne_of_edgesFrom (he : e ∈ node.edgesFrom path) (h : g.Arrives caller? e a) :
    a.path ≠ path := by
  obtain ⟨edge, -, rfl⟩ := List.mem_map.1 he
  obtain ⟨rest, ha, -⟩ := h
  simp [ha]

/-- Paths that go on along different slots are different. -/
theorem pairwise_edgesFrom (path : List Slot) (node : Node) :
    (node.edgesFrom path).Pairwise Apart := by
  have slots : node.edges.Pairwise fun e e' => e.1 ≠ e'.1 := by
    refine (List.pairwise_map.1 node.nodup_operands).filterMap _ fun e e' ne a ha b hb => ?_
    obtain ⟨m, -, rfl⟩ := Option.map_eq_some_iff.1 ha
    obtain ⟨m', -, rfl⟩ := Option.map_eq_some_iff.1 hb
    exact ne
  refine List.pairwise_map.2 (slots.imp fun ne p p' same => ne ?_)
  rw [List.append_assoc, List.append_assoc, List.append_cancel_left_eq] at same
  exact (List.cons.inj same).1

/-! ## Covering walks -/

/-- The calls `calls` on entering and on leaving nodes are those at the ends of the paths that begin
with one of `starts`, one each. -/
structure Covers (g : Graph) (caller? : Option Node) (starts : List (List Slot × NodeId))
    (calls : List Callback) (pres posts : List Arrival) : Prop where
  nodup : (pres.map Arrival.path).Nodup
  mem : ∀ a, a ∈ pres ↔ ∃ e ∈ starts, g.Arrives caller? e a
  perm : posts.Perm pres
  pre : calls.filterMap Callback.pre? = pres.map fun a => (a.caller?, a.node)
  post : calls.filterMap Callback.post? = posts.map fun a => (a.caller?, a.node)

variable {starts : List (List Slot × NodeId)} {inner calls : List Callback}
  {pres posts pres' posts' : List Arrival}

theorem Covers.nil : g.Covers caller? [] [] [] [] where
  nodup := List.nodup_nil
  mem a := by simp
  perm := .nil
  pre := rfl
  post := rfl

theorem Covers.missing (absent : g.node? n = none) (rest : g.Covers caller? starts calls pres posts) :
    g.Covers caller? ((path, n) :: starts) calls pres posts where
  nodup := rest.nodup
  mem a := by simp [rest.mem, not_arrives_of_missing absent]
  perm := rest.perm
  pre := rest.pre
  post := rest.post

theorem Covers.entered (stored : g.node? n = some node) (apart : ∀ e ∈ starts, Apart (path, n) e)
    (below : g.Covers (some node) (node.edgesFrom path) inner pres posts)
    (rest : g.Covers caller? starts calls pres' posts') :
    g.Covers caller? ((path, n) :: starts)
      (.accepts caller? node :: .pre caller? node :: (inner ++ .post caller? node :: calls))
      (⟨path, caller?, node⟩ :: (pres ++ pres')) (posts ++ ⟨path, caller?, node⟩ :: posts') := by
  refine ⟨?_, fun a => ?_, ?_, ?_, ?_⟩
  · rw [List.map_cons, List.map_append, List.nodup_cons, List.nodup_append, List.mem_append]
    refine ⟨?_, below.nodup, rest.nodup, fun p hp p' hp' => ?_⟩
    · rintro (h | h)
      all_goals obtain ⟨a, ha, same⟩ := List.mem_map.1 h
      · obtain ⟨e, he, arrives⟩ := (below.mem a).1 ha
        exact path_ne_of_edgesFrom he arrives same
      · obtain ⟨e, he, arrives⟩ := (rest.mem a).1 ha
        have here : g.Arrives caller? (path, n) ⟨path, caller?, node⟩ :=
          (arrives_iff stored).2 (.inl rfl)
        exact (apart e he).path_ne here arrives same.symm
    · obtain ⟨a, ha, rfl⟩ := List.mem_map.1 hp
      obtain ⟨a', ha', rfl⟩ := List.mem_map.1 hp'
      obtain ⟨e, he, arrives⟩ := (below.mem a).1 ha
      obtain ⟨e', he', arrives'⟩ := (rest.mem a').1 ha'
      exact ((apart e' he').of_edgesFrom he).path_ne arrives arrives'
  · rw [List.mem_cons, List.mem_append, below.mem, rest.mem, List.exists_mem_cons_iff,
      arrives_iff stored, or_assoc]
  · exact List.perm_middle.trans ((below.perm.append rest.perm).cons _)
  · rw [List.map_cons, List.map_append, ← below.pre, ← rest.pre, ← List.filterMap_append]
    simp [List.filterMap_cons, Callback.pre?]
  · rw [List.map_append, List.map_cons, ← below.post, ← rest.post]
    simp [List.filterMap_cons, Callback.post?]

end Graph

/-- With a walker that accepts every node, the recursion goes along every path once. -/
theorem Walker.Recurses.covers {σ : Type} {w : Walker σ} {g : Graph} {caller? : Option Node}
    {ns : List NodeId} {s t : σ} {calls : List Callback} (walk : w.Recurses g caller? ns s calls t)
    (accepting : ∀ caller? n s, (w.accepts caller? n s).1 = true)
    {starts : List (List Slot × NodeId)} (nodes : starts.map (·.2) = ns)
    (apart : starts.Pairwise Graph.Apart) :
    ∃ pres posts, g.Covers caller? starts calls pres posts := by
  induction walk generalizing starts with
  | nil =>
    obtain rfl := List.map_eq_nil_iff.1 nodes
    exact ⟨[], [], .nil⟩
  | missing absent _ ih =>
    obtain ⟨⟨path, n⟩, starts, rfl, rfl, others⟩ := List.map_eq_cons_iff.1 nodes
    obtain ⟨pres, posts, rest⟩ := ih others (List.pairwise_cons.1 apart).2
    exact ⟨pres, posts, .missing absent rest⟩
  | refused _ answer _ _ =>
    exact absurd ((congrArg Prod.fst answer).symm.trans (accepting _ _ _)) Bool.false_ne_true
  | @entered _ _ _ _ _ _ _ node _ _ stored _ _ _ ihBelow ihRest =>
    obtain ⟨⟨path, n⟩, starts, rfl, rfl, others⟩ := List.map_eq_cons_iff.1 nodes
    obtain ⟨apart, apart'⟩ := List.pairwise_cons.1 apart
    have operands := (node.map_snd_edgesFrom path).trans node.operandNodes_eq
    obtain ⟨pres, posts, below⟩ := ihBelow operands (Graph.pairwise_edgesFrom path node)
    obtain ⟨pres', posts', rest⟩ := ihRest others apart'
    exact ⟨_, _, .entered stored apart below rest⟩

/-! ## Acyclic graphs -/

/-- Without a cycle every path ends, because it does not come to a stored node twice. -/
theorem Graph.acc_of_acyclic {g : Graph} (acyclic : ∀ n, ¬ TransGen g.Reads n n) (n : NodeId) :
    Acc (fun m n => g.Reads n m) n := by
  have finite : Finite {n // g.contains n} := by
    refine (List.finite_toSet g.nodes.keys).subset fun n stored => ?_
    exact Std.ExtTreeMap.mem_keys.2 stored
  have wf : WellFounded fun a b : {n // g.contains n} => TransGen g.Reads b.1 a.1 := by
    have : IsTrans {n // g.contains n} fun a b => TransGen g.Reads b.1 a.1 :=
      ⟨fun _ _ _ first second => second.trans first⟩
    have : Std.Irrefl fun a b : {n // g.contains n} => TransGen g.Reads b.1 a.1 :=
      ⟨fun a => acyclic a.1⟩
    exact Finite.wellFounded_of_trans_of_irrefl _
  have stored (a : {n // g.contains n}) : Acc (fun m n => g.Reads n m) a.1 := by
    induction a using wf.induction with
    | h a ih => exact ⟨_, fun m read => ih ⟨m, read.2⟩ (.single read)⟩
  exact ⟨_, fun m read => stored ⟨m, read.2⟩⟩

/-- Every walker ends where every path ends. -/
theorem Walker.exists_walks_of_acc {σ : Type} (w : Walker σ) {g : Graph} {n : NodeId}
    (acc : Acc (fun m n => g.Reads n m) n) (parent? : Option NodeId) (s : σ) :
    ∃ t, w.Walks g parent? [n] s t := by
  induction acc generalizing parent? s with
  | intro n _ ih =>
    cases stored : g.node? n with
    | none => exact ⟨s, .missing stored .nil⟩
    | some node =>
      rcases answer : w.accepts (parent?.bind g.node?) node s with ⟨_ | _, s'⟩
      · exact ⟨s', .refused stored answer .nil⟩
      · obtain ⟨u, below⟩ := exists_walks (fun m hm s => by
            by_cases here : g.contains m
            · exact ih m ((Graph.reads_iff stored).2 ⟨hm, here⟩) (some n) s
            · exact ⟨s, .missing (Graph.not_contains_iff.1 here) .nil⟩)
          (w.pre (parent?.bind g.node?) node s')
        exact ⟨_, .entered stored answer below .nil⟩

/-- A walk on a stack makes the calls of the recursion and ends in its state, and it ends only if the
recursion does. The recursion is finite on acyclic graphs. With a walker that accepts every node, the
calls on entering nodes are made at the ends of the operand paths from the root, once for each of
them, and likewise the calls on leaving. -/
theorem Graph.visit_refines_recursion {σ : Type} (g : Graph) (w : Walker σ) (root : NodeId) (s : σ) :
    (∀ calls t, w.Recurses g none [root] s calls t → ∃ bound, ∀ b, bound ≤ b →
      g.visit w b root s = some t ∧ g.visit w.logged b root (s, []) = some (t, calls)) ∧
    (∀ b t, g.visit w b root s = some t → ∃ calls, w.Recurses g none [root] s calls t) ∧
    ((∀ n, ¬ TransGen g.Reads n n) → ∃ calls t, w.Recurses g none [root] s calls t) ∧
    ((∀ caller? n s, (w.accepts caller? n s).1 = true) →
      ∀ calls t, w.Recurses g none [root] s calls t → ∃ pres posts : List Arrival,
        (pres.map Arrival.path).Nodup ∧
        (∀ a, a ∈ pres ↔ g.Path none root a.path a.caller? a.node) ∧ posts.Perm pres ∧
        calls.filterMap Callback.pre? = pres.map (fun a => (a.caller?, a.node)) ∧
        calls.filterMap Callback.post? = posts.map fun a => (a.caller?, a.node)) := by
  refine ⟨fun calls t walk => ?_, fun b t done => ?_, fun acyclic => ?_,
    fun accepting calls t walk => ?_⟩
  · obtain ⟨bound, plain⟩ := (walk.walks (Option.bind_none g.node?)).visit
    obtain ⟨bound', logged⟩ := (walk.walks_logged (Option.bind_none g.node?) []).visit
    exact ⟨max bound bound', fun b hb => ⟨plain b (by omega), logged b (by omega)⟩⟩
  · exact (Walker.walks_of_visit done).recurses
  · obtain ⟨t, walk⟩ := w.exists_walks_of_acc (Graph.acc_of_acyclic acyclic root) none s
    obtain ⟨calls, walk⟩ := walk.recurses
    exact ⟨calls, t, walk⟩
  · have start : [(([] : List Slot), root)].map (·.2) = [root] := rfl
    obtain ⟨pres, posts, cover⟩ := walk.covers accepting start (List.pairwise_singleton ..)
    refine ⟨pres, posts, cover.nodup, fun a => ?_, cover.perm, cover.pre, cover.post⟩
    simp [cover.mem, Graph.Arrives]

namespace Workspace

theorem visit_refines_recursion_diamond :
    let g := (empty.run diamond).graph
    let w : Walker Unit := {}
    (∀ n, ¬ TransGen g.Reads n n) ∧ ∃ calls, w.Recurses g none [⟨3⟩] () calls () ∧
      (∃ bound, ∀ b, bound ≤ b → g.visit w.logged b ⟨3⟩ ((), []) = some ((), calls)) ∧
      (calls.filterMap Callback.pre?).map (fun a => a.2.id) = [⟨3⟩, ⟨1⟩, ⟨0⟩, ⟨1⟩, ⟨0⟩] ∧
      ∃ pres : List Arrival, (pres.map Arrival.path).Nodup ∧ pres.length = 5 ∧
        ∀ a, a ∈ pres ↔ g.Path none ⟨3⟩ a.path a.caller? a.node := by
  intro g w
  have own := reachable_diamond.consistent.coherent.owned
  have acyclic : ∀ n, ¬ TransGen g.Reads n n := own.acyclic_iff.1 (by decide +kernel)
  obtain ⟨stack, -, finite, paths⟩ := Graph.visit_refines_recursion g w ⟨3⟩ ()
  obtain ⟨calls, ⟨⟩, walk⟩ := finite acyclic
  obtain ⟨bound, visit⟩ := stack calls () walk
  obtain ⟨pres, -, nodup, mem, -, pre, -⟩ := paths (fun _ _ _ => rfl) calls () walk
  have run : (g.visit w.logged 5 ⟨3⟩ ((), [])).map
      (fun r => (r.2.filterMap Callback.pre?).map fun a => a.2.id) =
        some [⟨3⟩, ⟨1⟩, ⟨0⟩, ⟨1⟩, ⟨0⟩] := by decide +kernel
  obtain ⟨⟨⟨⟩, log⟩, done, entered⟩ := Option.map_eq_some_iff.1 run
  obtain rfl : log = calls :=
    congrArg Prod.snd (Walker.visit_unique done (visit bound (Nat.le_refl _)).2)
  refine ⟨acyclic, log, walk, ⟨bound, fun b hb => (visit b hb).2⟩, entered, pres, nodup, ?_, mem⟩
  have lengths := congrArg List.length entered
  rwa [pre, List.length_map, List.length_map] at lengths

end Workspace

end Dataflow
