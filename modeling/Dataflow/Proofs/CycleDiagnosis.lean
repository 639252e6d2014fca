import Dataflow.Proofs.CycleSearch
import Dataflow.Proofs.Problems
import Dataflow.Proofs.Teardown
import Mathlib.Data.List.Chain

/-!
# The diagnosis of cycles

A cycle is a list of nodes each of which reads the next one, the last one reading the first. Every
closed path along operand edges is one (`exists_isChain_of_transGen`), so what a search says about
paths can be read as a statement about cycles. The diagnosis of a function names closing nodes, and
nothing else as part of a cycle (`filterMap_cycleNode?`).
-/

namespace Dataflow

open Relation

/-! ## Closed paths -/

section Chains

variable {α : Type} {r : α → α → Prop}

/-- A chain leads from its head to everything else on it. -/
theorem transGen_of_isChain {a b : α} {l : List α} (chain : (a :: l).IsChain r) (hb : b ∈ l) :
    TransGen r a b :=
  (chain.imp fun _ _ edge => TransGen.single edge).rel_cons hb

/-- A path is met node by node. -/
theorem exists_isChain_of_transGen {a b : α} (path : TransGen r a b) :
    ∃ l, (a :: (l ++ [b])).IsChain r := by
  induction path using TransGen.head_induction_on with
  | single edge => exact ⟨[], List.isChain_pair.2 edge⟩
  | head edge _ ih =>
    obtain ⟨l, chain⟩ := ih
    exact ⟨_ :: l, List.isChain_cons_cons.2 ⟨edge, chain⟩⟩

end Chains

/-- The node that a problem names as part of a cycle. -/
def Problem.cycleNode? : Problem → Option NodeId
  | cycle n => some n
  | _ => none

namespace Graph

/-- Nodes each of which reads the next one, and the last one the first. -/
def IsCycle (g : Graph) : List NodeId → Prop
  | [] => False
  | n :: ns => (n :: (ns ++ [n])).IsChain g.Reads

/-- Whatever lies below a node below the roots lies below the roots. -/
theorem Below.trans {g : Graph} {roots : List NodeId} {n m : NodeId} (below : g.Below roots n)
    (path : ReflTransGen g.Reads n m) : g.Below roots m := by
  obtain ⟨r, hr, stored, path'⟩ := below
  exact ⟨r, hr, stored, path'.trans path⟩

/-- A closed path from a node is a cycle, whose nodes all lie below this node. -/
theorem exists_isCycle {g : Graph} {n : NodeId} (path : TransGen g.Reads n n) :
    ∃ cycle, g.IsCycle cycle ∧ n ∈ cycle ∧ ∀ m ∈ cycle, ReflTransGen g.Reads n m := by
  obtain ⟨ns, chain⟩ := exists_isChain_of_transGen path
  refine ⟨n :: ns, chain, List.mem_cons_self .., fun m hm => ?_⟩
  rcases List.mem_cons.1 hm with rfl | hm
  · exact .refl
  · exact (transGen_of_isChain chain (List.mem_append_left _ hm)).to_reflTransGen

/-- Every cycle below the roots of a search contains a closing node. -/
theorem Owned.exists_mem_closingNodes {g : Graph} (own : g.Owned) {roots cycle : List NodeId}
    (closed : g.IsCycle cycle) (below : ∀ n ∈ cycle, g.Below roots n) :
    ∃ c ∈ g.closingNodes roots, c ∈ cycle := by
  obtain ⟨-, -, broken⟩ := own.closingNodes_spec roots
  match cycle, closed with
  | n :: ns, chain =>
    by_contra missed
    have avoided : ∀ c ∈ n :: (ns ++ [n]), c ∉ g.closingNodes roots := fun c hc closing => by
      refine missed ⟨c, closing, ?_⟩
      simpa [or_comm, or_assoc] using hc
    have chain := chain.imp_of_mem_imp fun u p _ hp read => And.intro read (avoided p hp)
    exact broken n (below n (List.mem_cons_self ..)) (transGen_of_isChain chain (by simp))

/-! ## Naming nodes on cycles -/

/-- No problem of a single node is about a cycle. -/
theorem cycleNode?_of_mem_nodeProblems {g : Graph} {n : Node} {p : Problem}
    (hp : p ∈ g.nodeProblems n) : p.cycleNode? = none := by
  rcases isLocal_or_mem_linkProblems hp with isLocal | hp
  · cases p with
    | cycle n => cases isLocal
    | _ => rfl
  · obtain ⟨user, v, flaw, rfl⟩ := exists_brokenLink_of_mem_linkProblems hp
    rfl

theorem cycleNode?_of_mem_memberProblems {g : Graph} {f : FuncId} {n : NodeId} {p : Problem}
    (hp : p ∈ g.memberProblems f n) : p.cycleNode? = none := by
  unfold memberProblems at hp
  split at hp
  · rw [List.mem_singleton.1 hp]
    rfl
  · rcases List.mem_append.1 hp with hp | hp
    · split_ifs at hp
      · cases hp
      · rw [List.mem_singleton.1 hp]
        rfl
    · exact cycleNode?_of_mem_nodeProblems hp

/-- The nodes that a diagnosis names as part of a cycle are the closing ones. -/
theorem filterMap_cycleNode? (g : Graph) (f : FuncId) (nodes : List NodeId) :
    (nodes.flatMap (g.memberProblems f) ++ (g.closingNodes nodes).map Problem.cycle).filterMap
      Problem.cycleNode? = g.closingNodes nodes := by
  have members : (nodes.flatMap (g.memberProblems f)).filterMap Problem.cycleNode? = [] := by
    refine List.filterMap_eq_nil_iff.2 fun p hp => ?_
    obtain ⟨n, -, hp⟩ := List.mem_flatMap.1 hp
    exact cycleNode?_of_mem_memberProblems hp
  have cycles : Problem.cycleNode? ∘ Problem.cycle = some := rfl
  rw [List.filterMap_append, members, List.filterMap_map, cycles, List.filterMap_some, List.nil_append]

end Graph

namespace Workspace

/-- The cycle problems of a function of a reachable workspace name different nodes, each of them below
the nodes of the function and on a cycle, and every cycle below the nodes of the function contains one
of them. So none is named exactly if there is no such cycle, and without the named nodes there is
none. -/
theorem Reachable.cycle_diagnosis_exact {w : Workspace} (reach : w.Reachable) {func : Func}
    (hf : func ∈ w.graph.funcs) :
    ∃ problems named, w.graph.problemsIn func.id = .ok problems ∧
      problems.filterMap Problem.cycleNode? = named ∧ named.Nodup ∧
      (∀ c ∈ named, w.graph.Below func.nodes c ∧ ∃ cycle, w.graph.IsCycle cycle ∧ c ∈ cycle) ∧
      (∀ cycle, w.graph.IsCycle cycle → (∀ n ∈ cycle, w.graph.Below func.nodes n) →
        ∃ c ∈ named, c ∈ cycle) ∧
      (named = [] ↔ ∀ cycle, w.graph.IsCycle cycle → ¬ ∀ n ∈ cycle, w.graph.Below func.nodes n) ∧
      ∀ n, ¬ TransGen (fun u p => w.graph.Reads u p ∧ w.graph.Below func.nodes u ∧
        w.graph.Below func.nodes p ∧ u ∉ named ∧ p ∉ named) n n := by
  have own := reach.consistent.coherent.owned
  obtain ⟨nodup, onCycle, broken⟩ := own.closingNodes_spec func.nodes
  have found := own.funcOrRefusal_eq_ok_iff.2 ⟨hf, rfl⟩
  refine ⟨_, w.graph.closingNodes func.nodes, by rw [Graph.problemsIn, found]; rfl,
    w.graph.filterMap_cycleNode? func.id func.nodes, nodup, fun c hc => ?_, ?_, ?_, fun n cycle => ?_⟩
  · obtain ⟨below, path⟩ := onCycle c hc
    obtain ⟨cycle, closed, hc, -⟩ := Graph.exists_isCycle path
    exact ⟨below, cycle, closed, hc⟩
  · exact fun cycle closed below => own.exists_mem_closingNodes closed below
  · constructor
    · intro none cycle closed below
      obtain ⟨c, hc, -⟩ := own.exists_mem_closingNodes closed below
      rw [none] at hc
      exact List.not_mem_nil hc
    · intro acyclic
      refine List.eq_nil_iff_forall_not_mem.2 fun c hc => ?_
      obtain ⟨below, path⟩ := onCycle c hc
      obtain ⟨cycle, closed, -, reached⟩ := Graph.exists_isCycle path
      exact acyclic cycle closed fun m hm => below.trans (reached m hm)
  · obtain ⟨p, first, -⟩ := TransGen.head'_iff.1 cycle
    refine broken n first.2.1 (TransGen.mono (fun u p edge => ?_) _ _ cycle)
    exact ⟨edge.1, edge.2.2.2.2⟩

theorem cycle_diagnosis_exact_tangle :
    ∃ func ∈ (empty.run tangle).graph.funcs, ∃ problems,
      (empty.run tangle).graph.problemsIn func.id = .ok problems ∧
      problems.filterMap Problem.cycleNode? = [⟨1⟩, ⟨2⟩] ∧
      ∃ cycle, (empty.run tangle).graph.IsCycle cycle ∧ ⟨1⟩ ∈ cycle := by
  obtain ⟨func, hf, main⟩ : ∃ func ∈ (empty.run tangle).graph.funcs,
      (empty.run tangle).graph.closingNodes func.nodes = [⟨1⟩, ⟨2⟩] := by decide +kernel
  have found := reachable_tangle.consistent.coherent.owned.funcOrRefusal_eq_ok_iff.2 ⟨hf, rfl⟩
  obtain ⟨problems, named, done, rfl, -, onCycle, -⟩ :=
    Reachable.cycle_diagnosis_exact reachable_tangle hf
  have named : problems.filterMap Problem.cycleNode? = [⟨1⟩, ⟨2⟩] := by
    rw [Graph.problemsIn, found] at done
    cases done
    rw [Graph.filterMap_cycleNode?, main]
  exact ⟨func, hf, problems, done, named, (onCycle ⟨1⟩ (by simp [named])).2⟩

end Workspace

end Dataflow
