import Dataflow.Proofs.Symmetry

/-!
# Free nodes

A free node is unlinked: it has no uses, and its slots hold no tokens. Nodes are made that way,
copies are, and no edit of a free node records a use.
-/

namespace Dataflow

namespace Node

/-- The edit keeps the identity of a node, and an unlinked node unlinked. -/
def KeepsFree (change : Node → Except Violation Node) : Prop :=
  ∀ {n m}, change n = .ok m → m.id = n.id ∧ (n.Unlinked → m.Unlinked)

/-- The slots of `m` hold what they hold in `n`, or no token. -/
def TokensFrom (n m : Node) : Prop :=
  ∀ s o, m.operand? s = some o → n.operand? s = some o ∨ o.token? = none

theorem tokensFrom_of_operand? {n m : Node} (same : m.operand? = n.operand?) : n.TokensFrom m :=
  fun _ _ held => .inl (same ▸ held)

theorem tokensFrom_setOperand (n : Node) (s : Slot) (v : Value) :
    n.TokensFrom (n.setOperand s (.unlinked v)) := by
  intro s' o held
  rw [operand?_setOperand] at held
  split_ifs at held
  · obtain ⟨-, -, rfl⟩ := Option.map_eq_some_iff.1 held
    exact .inr rfl
  · exact .inl held

/-- The edit keeps the identity and the uses of a node, and brings no token into a slot. -/
def Retains (change : Node → Except Violation Node) : Prop :=
  ∀ n m, change n = .ok m → m.id = n.id ∧ m.uses = n.uses ∧ n.TokensFrom m

theorem Retains.keepsFree {change : Node → Except Violation Node} (retains : Retains change) :
    KeepsFree change := by
  intro n m done
  obtain ⟨same, uses, tokens⟩ := retains n m done
  refine ⟨same, fun free => ⟨uses.trans free.uses, fun {s o} held => ?_⟩⟩
  rcases tokens s o held with held | none
  · exact free.token held
  · exact none

theorem retains_addResult (t? : Option TensorType) : Retains (·.addResult t?) := by
  intro n m done
  change n.addResult t? = .ok m at done
  unfold addResult at done
  split_ifs at done
  cases done
  exact ⟨rfl, rfl, tokensFrom_of_operand? (funext fun s => by cases s <;> rfl)⟩

theorem retains_setType (i : Nat) (t : TensorType) : Retains (·.setType i t) := by
  intro n m done
  change n.setType i t = .ok m at done
  unfold setType at done
  split_ifs at done
  cases done
  exact ⟨rfl, rfl, tokensFrom_of_operand? (funext fun s => by cases s <;> rfl)⟩

theorem retains_rename (name : String) : Retains fun n => .ok { n with name } := by
  intro n m done
  cases done
  exact ⟨rfl, rfl, tokensFrom_of_operand? (funext fun s => by cases s <;> rfl)⟩

theorem retains_reparent (parent? : Option FuncId) : Retains fun n => .ok { n with parent? } := by
  intro n m done
  cases done
  exact ⟨rfl, rfl, tokensFrom_of_operand? (funext fun s => by cases s <;> rfl)⟩

theorem retains_setPredicate (v : Value) : Retains (·.setPredicate v) := by
  intro n m done
  obtain ⟨_, -, done⟩ := bind_eq_ok_iff.1 done
  cases done
  exact ⟨n.id_setOperand .predicate _, n.uses_setOperand .predicate _,
    n.tokensFrom_setOperand .predicate v⟩

theorem retains_setInput (i : Nat) (v : Value) : Retains (·.setInput i v) := by
  intro n m done
  obtain ⟨_, -, done⟩ := bind_eq_ok_iff.1 done
  split_ifs at done
  cases done
  exact ⟨n.id_setOperand (.input i) _, n.uses_setOperand (.input i) _,
    n.tokensFrom_setOperand (.input i) v⟩

theorem retains_pushInput (v : Value) : Retains (·.pushInput v) := by
  intro n m done
  obtain ⟨_, -, done⟩ := bind_eq_ok_iff.1 done
  cases done
  refine ⟨rfl, rfl, fun s o held => ?_⟩
  cases s with
  | predicate => exact .inl held
  | input i =>
    change (n.inputs ++ [.unlinked v])[i]? = some o at held
    rw [List.getElem?_append] at held
    split_ifs at held
    · exact .inl held
    · obtain rfl := List.mem_singleton.1 (List.mem_of_getElem? held)
      exact .inr rfl

theorem unlinked_of_inputs {n : Node} (values : List Value) {v : Value}
    (uses : n.uses = .empty) (inputs : n.inputs = values.map .unlinked)
    (predicate : n.predicate = .unlinked v) : n.Unlinked := by
  refine ⟨uses, fun {s o} held => ?_⟩
  cases s with
  | predicate =>
    obtain rfl := Option.some.inj held
    rw [predicate]
    rfl
  | input i =>
    change n.inputs[i]? = some o at held
    rw [inputs, List.getElem?_map, Option.map_eq_some_iff] at held
    obtain ⟨w, -, rfl⟩ := held
    rfl

theorem unlinked_clone (n : Node) (id : NodeId) : (n.clone id).Unlinked :=
  unlinked_of_inputs (n.inputs.map (·.value)) rfl (by simp [clone]) rfl

/-- A node is made with the given identity, unlinked. -/
theorem Spec.unlinked_build {spec : Spec} {id : NodeId} {n : Node} (made : spec.build id = .ok n) :
    n.id = id ∧ n.Unlinked := by
  have results (ts : List (Option TensorType)) (n m : Node) (done : ts.foldlM addResult n = .ok m) :
      m.id = n.id ∧ (n.Unlinked → m.Unlinked) := by
    induction ts generalizing n with
    | nil =>
      cases done
      exact ⟨rfl, fun free => free⟩
    | cons t ts ih =>
      rw [List.foldlM_cons] at done
      obtain ⟨k, first, rest⟩ := bind_eq_ok_iff.1 done
      have kept := (retains_addResult t).keepsFree first
      have := ih k rest
      exact ⟨this.1.trans kept.1, fun free => this.2 (kept.2 free)⟩
  have built := results _ _ _ made
  exact ⟨built.1, built.2 (unlinked_of_inputs spec.inputs rfl rfl rfl)⟩

end Node

end Dataflow
