import Dataflow.Diagnosis
import Dataflow.Proofs.Symmetry

/-!
# Problems of a node

The checks of a node come in two kinds. Most look at the node and at the results that it reads, and what
they find is *local*; the last one compares slots with use records, and finds broken links. Cycles and
misplaced nodes are problems of a function, which no check of a node finds.
-/

namespace Dataflow

/-- Whether a problem is one of a node and of the results that it reads. -/
def Problem.isLocal : Problem → Bool
  | brokenLink .. | cycle _ | misplaced .. => false
  | _ => true

namespace Graph

variable {g : Graph} {n : Node} {p : Problem}

/-! ## Kinds of problems -/

theorem isLocal_of_mem_untypedResults (hp : p ∈ untypedResults n) : p.isLocal := by
  obtain ⟨ps, hps, hp⟩ := List.mem_flatten.1 hp
  obtain ⟨i, hi, rfl⟩ := List.mem_mapIdx.1 hps
  split_ifs at hp
  · rw [List.mem_singleton.1 hp]
    rfl
  · cases hp

theorem isLocal_of_mem_resultCountProblems (hp : p ∈ resultCountProblems n) : p.isLocal := by
  unfold resultCountProblems at hp
  split_ifs at hp
  · cases hp
  · rw [List.mem_singleton.1 hp]
    rfl

theorem isLocal_of_mem_arityProblems (hp : p ∈ arityProblems n) : p.isLocal := by
  unfold arityProblems at hp
  split_ifs at hp
  · cases hp
  · rw [List.mem_singleton.1 hp]
    rfl

theorem isLocal_of_mem_inputProblems {i : Nat} {v : Value} (hp : p ∈ g.inputProblems n i v) :
    p.isLocal := by
  unfold inputProblems at hp
  split at hp
  · rw [List.mem_singleton.1 hp]
    rfl
  · split at hp
    · rw [List.mem_singleton.1 hp]
      rfl
    · split_ifs at hp
      · cases hp
      · rw [List.mem_singleton.1 hp]
        rfl

theorem isLocal_of_mem_predicateProblems (hp : p ∈ g.predicateProblems n) : p.isLocal := by
  unfold predicateProblems at hp
  dsimp only at hp
  split_ifs at hp
  · cases hp
  · split at hp
    · rw [List.mem_singleton.1 hp]
      rfl
    · split at hp
      · rw [List.mem_singleton.1 hp]
        rfl
      · cases hp
      · split_ifs at hp
        · cases hp
        · rw [List.mem_singleton.1 hp]
          rfl

/-- The problems of a node are local, but for those of its links. -/
theorem isLocal_or_mem_linkProblems (hp : p ∈ g.nodeProblems n) :
    p.isLocal ∨ p ∈ g.linkProblems n := by
  simp only [nodeProblems, List.mem_append] at hp
  rcases hp with (((((hp | hp) | hp) | hp) | hp) | hp) | hp
  · exact .inl (isLocal_of_mem_untypedResults hp)
  · exact .inl (isLocal_of_mem_resultCountProblems hp)
  · exact .inl (isLocal_of_mem_arityProblems hp)
  · obtain ⟨ps, hps, hp⟩ := List.mem_flatten.1 hp
    obtain ⟨i, hi, rfl⟩ := List.mem_mapIdx.1 hps
    exact .inl (isLocal_of_mem_inputProblems hp)
  · exact .inl (isLocal_of_mem_predicateProblems hp)
  · obtain ⟨breach, -, rfl⟩ := List.mem_map.1 hp
    exact .inl rfl
  · exact .inr hp

/-- The check of links reports broken links and nothing else. -/
theorem exists_brokenLink_of_mem_linkProblems (hp : p ∈ g.linkProblems n) :
    ∃ user v flaw, p = .brokenLink user v flaw := by
  rcases List.mem_append.1 hp with hp | hp
  all_goals
    obtain ⟨e, -, flawed⟩ := List.mem_filterMap.1 hp
    obtain ⟨flaw, -, rfl⟩ := Option.map_eq_some_iff.1 flawed
    exact ⟨_, _, flaw, rfl⟩

/-- A node is reported for broken links exactly if the check of links finds something. -/
theorem exists_brokenLink_mem_nodeProblems_iff :
    (∃ user v flaw, .brokenLink user v flaw ∈ g.nodeProblems n) ↔ g.linkProblems n ≠ [] := by
  constructor
  · rintro ⟨user, v, flaw, hp⟩
    exact List.ne_nil_of_mem ((isLocal_or_mem_linkProblems hp).resolve_left Bool.false_ne_true)
  · intro found
    obtain ⟨p, hp⟩ := List.exists_mem_of_ne_nil _ found
    obtain ⟨user, v, flaw, rfl⟩ := exists_brokenLink_of_mem_linkProblems hp
    exact ⟨user, v, flaw, List.mem_append_right _ hp⟩

/-! ## Links -/

/-- A slot that reads a stored node is passed if its token stands for the record of this use. -/
theorem slotFlaw?_eq_none_iff {s : Slot} {o : Operand} {p : NodeId}
    (held : n.operand? s = some o) (hp : o.value.node? = some p) (stored : g.contains p) :
    g.slotFlaw? n s o.value = none ↔
      ∃ t, o.token? = some t ∧ g.record? p t = some ⟨n.id, s, o.value⟩ := by
  obtain ⟨producer, stored⟩ := contains_iff.1 stored
  simp only [slotFlaw?, hp, stored, held, record?, Option.bind_eq_bind, Option.bind_some]
  cases o.token? with
  | none => simp
  | some t =>
    simp only [Option.bind_some, Option.some.injEq, exists_eq_left']
    cases producer.uses.get? t with
    | none => simp
    | some u =>
      obtain ⟨user, s', v⟩ := u
      by_cases place : user = n.id ∧ s' = s
      · by_cases value : v = o.value <;> simp [place, value]
      · simp [not_and_or.1 place, ← and_assoc, place]

/-- A record is passed if the slot that it names holds its value and its token. -/
theorem recordFlaw?_eq_none_iff {t : Token} {u : Use} :
    g.recordFlaw? t u = none ↔ g.operand? u.user u.slot = some ⟨u.value, some t⟩ := by
  unfold recordFlaw? operand?
  cases g.node? u.user with
  | none => simp
  | some user =>
    rw [Option.bind_some]
    dsimp only
    cases user.operand? u.slot with
    | none => simp
    | some o =>
      obtain ⟨v, token?⟩ := o
      by_cases value : v = u.value <;> by_cases token : token? = some t <;> simp [value, token]

theorem linkProblems_eq_nil_iff : g.linkProblems n = [] ↔
    (∀ s v, (s, v) ∈ n.operands → g.slotFlaw? n s v = none) ∧
      ∀ t u, (t, u) ∈ n.uses.entries → g.recordFlaw? t u = none := by
  simp only [linkProblems, List.append_eq_nil_iff, List.filterMap_eq_nil_iff, Option.map_eq_none_iff,
    Prod.forall]

/-- In a symmetric graph nothing is wrong with the links of a stored node. -/
theorem Symmetric.linkProblems_eq_nil (sym : g.Symmetric) (stored : g.node? n.id = some n) :
    g.linkProblems n = [] := by
  refine linkProblems_eq_nil_iff.2 ⟨fun s v read => ?_, fun t u listed => ?_⟩
  · obtain ⟨ne, o, held, rfl⟩ := Node.mem_operands.1 read
    rcases sym.slot (operand?_eq_some_iff.2 ⟨n, stored, held⟩) with rfl | ⟨p, t, hp, token, recorded⟩
    · exact absurd rfl ne
    · obtain ⟨producer, found, -⟩ := record?_eq_some_iff.1 recorded
      exact (slotFlaw?_eq_none_iff held hp (contains_of_node? found)).2 ⟨t, token, recorded⟩
  · exact recordFlaw?_eq_none_iff.2 (sym.record (record?_eq_some_iff_mem.2 ⟨n, stored, listed⟩)).2

end Graph

end Dataflow
