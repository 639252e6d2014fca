import Dataflow.Proofs.Rewiring

/-!
# Use-def symmetry

In a symmetric graph slots and use records name each other: a slot that reads a value keeps the token
of the record of exactly this use, and a record names a slot that keeps its token. Connecting a slot
(`Symmetric.connect`), storing a node (`Symmetric.store`), redirecting uses (`Symmetric.redirect`) and
discarding a node without uses and operands (`Symmetric.discard`) keep a graph symmetric.

While a slot is being rewritten it is *loose*: it has no record, whatever it holds. Forgetting the
record of a slot makes it loose, and linking it makes it tight again, so both are proved for graphs
that are symmetric except at loose slots.
-/

namespace Dataflow

/-- A node that has no uses, and whose slots hold no tokens. -/
structure Node.Unlinked (n : Node) : Prop where
  uses : n.uses = .empty
  token : ∀ {s o}, n.operand? s = some o → o.token? = none

namespace Graph

/-- The slot holds the null reference and no token, or a value and the token of the record of exactly
this use in the list of the node that the value names. -/
def Linked (g : Graph) (user : NodeId) (s : Slot) (o : Operand) : Prop :=
  o = .unlinked .null ∨
    ∃ p t, o.value.node? = some p ∧ o.token? = some t ∧ g.record? p t = some ⟨user, s, o.value⟩

/-- Every slot of a stored node is linked, and every record stands in the list of the node that its
value names and is the record of a slot that holds its value and its token. -/
structure Symmetric (g : Graph) : Prop where
  slot : ∀ {user s o}, g.operand? user s = some o → g.Linked user s o
  record : ∀ {p t u}, g.record? p t = some u →
    u.value.node? = some p ∧ g.operand? u.user u.slot = some ⟨u.value, some t⟩

/-- Symmetry of the slots that are not loose; a loose slot has no record. -/
structure SymmetricExcept (g : Graph) (loose : NodeId → Slot → Prop) : Prop where
  slot : ∀ {user s o}, g.operand? user s = some o → ¬ loose user s → g.Linked user s o
  record : ∀ {p t u}, g.record? p t = some u → ¬ loose u.user u.slot ∧
    u.value.node? = some p ∧ g.operand? u.user u.slot = some ⟨u.value, some t⟩

theorem symmetricExcept_false_iff {g : Graph} :
    g.SymmetricExcept (fun _ _ => False) ↔ g.Symmetric :=
  ⟨fun sym => ⟨fun h => sym.slot h not_false, fun h => (sym.record h).2⟩,
    fun sym => ⟨fun h _ => sym.slot h, fun h => ⟨not_false, sym.record h⟩⟩⟩

theorem SymmetricExcept.congr {g : Graph} {loose loose' : NodeId → Slot → Prop}
    (sym : g.SymmetricExcept loose) (same : ∀ x s, loose x s ↔ loose' x s) :
    g.SymmetricExcept loose' := by
  obtain rfl : loose = loose' := funext₂ fun x s => propext (same x s)
  exact sym

/-! ## Readers of a node -/

/-- The slots that read a stored node are those that its records name. -/
theorem Symmetric.reads?_eq_some_iff {g : Graph} (sym : g.Symmetric) {user p : NodeId} {s : Slot}
    {v : Value} (hp : v.node? = some p) :
    g.reads? user s = some v ↔ ∃ t, g.record? p t = some ⟨user, s, v⟩ := by
  rw [reads?, Option.map_eq_some_iff]
  constructor
  · rintro ⟨o, ho, rfl⟩
    rcases sym.slot ho with rfl | ⟨q, t, hq, -, ht⟩
    · simp [Operand.unlinked, Value.node?] at hp
    · obtain rfl := Option.some.inj (hp.symm.trans hq)
      exact ⟨t, ht⟩
  · rintro ⟨t, ht⟩
    exact ⟨_, (sym.record ht).2, rfl⟩

/-- Every slot of a stored node can be read. -/
theorem Symmetric.readable {g : Graph} (sym : g.Symmetric) {user : NodeId} {s : Slot} {v : Value}
    (h : g.reads? user s = some v) : g.Readable v := by
  intro p hp
  obtain ⟨t, ht⟩ := (sym.reads?_eq_some_iff hp).1 h
  obtain ⟨node, stored, -⟩ := record?_eq_some_iff.1 ht
  exact contains_of_node? stored

/-- Two records of one slot are the same record. -/
theorem Symmetric.token_unique {g : Graph} (sym : g.Symmetric) {p q : NodeId} {t t' : Token}
    {u u' : Use} (h : g.record? p t = some u) (h' : g.record? q t' = some u')
    (user : u.user = u'.user) (slot : u.slot = u'.slot) : p = q ∧ t = t' ∧ u = u' := by
  obtain ⟨hp, held⟩ := sym.record h
  obtain ⟨hq, held'⟩ := sym.record h'
  rw [user, slot, held', Option.some.injEq, Operand.mk.injEq, Option.some.injEq] at held
  refine ⟨?_, held.2.symm, ?_⟩
  · rw [← held.1, hq, Option.some.injEq] at hp
    exact hp.symm
  · cases u
    cases u'
    simp_all

/-! ## Forgetting and linking -/

/-- A slot whose record has been forgotten is loose. -/
theorem SymmetricExcept.forgetUse {g : Graph} {loose : NodeId → Slot → Prop}
    (sym : g.SymmetricExcept loose) {user : NodeId} {s : Slot} {o : Operand}
    (held : g.operand? user s = some o) (tight : ¬ loose user s) :
    (g.forgetUse o).SymmetricExcept fun x s' => loose x s' ∨ x = user ∧ s' = s := by
  constructor
  · intro x s' o' h hl
    rw [not_or] at hl
    rw [operand?_forgetUse] at h
    rcases sym.slot h hl.1 with rfl | ⟨p, t, hp, ht, hr⟩
    · exact .inl rfl
    · refine .inr ⟨p, t, hp, ht, ?_⟩
      rw [record?_forgetUse, if_neg, hr]
      rintro ⟨hop, hot⟩
      -- the forgotten record is that of the slot itself
      rcases sym.slot held tight with rfl | ⟨q, t', hq, ht', hr'⟩
      · simp [Operand.unlinked] at hot
      · obtain rfl := Option.some.inj (hop.symm.trans hq)
        obtain rfl := Option.some.inj (hot.symm.trans ht')
        rw [hr, Option.some.injEq, Use.mk.injEq] at hr'
        exact hl.2 ⟨hr'.1, hr'.2.1⟩
  · intro p t u h
    rw [record?_forgetUse] at h
    split_ifs at h with hf
    obtain ⟨hl, hp, hu⟩ := sym.record h
    rw [operand?_forgetUse]
    refine ⟨not_or.2 ⟨hl, ?_⟩, hp, hu⟩
    rintro ⟨rfl, rfl⟩
    rw [hu, Option.some.injEq] at held
    subst held
    exact hf ⟨hp, rfl⟩

/-- Linking a loose slot makes it tight. -/
theorem SymmetricExcept.link {g : Graph} {loose : NodeId → Slot → Prop}
    (sym : g.SymmetricExcept loose) {user : NodeId} {s : Slot} {v : Value}
    (held : (g.operand? user s).isSome) (hl : loose user s) (hv : g.Readable v) :
    (g.link user s v).SymmetricExcept fun x s' => loose x s' ∧ ¬ (x = user ∧ s' = s) := by
  constructor
  · intro x s' o h hl'
    rw [operand?_link] at h
    split_ifs at h with same
    · obtain ⟨rfl, rfl⟩ := same
      obtain ⟨_, -, rfl⟩ := Option.map_eq_some_iff.1 h
      cases hp : v.node? with
      | none =>
        cases v with
        | null => exact .inl rfl
        | result p i => simp [Value.node?] at hp
      | some p =>
        obtain ⟨node, hn⟩ := contains_iff.1 (hv p hp)
        have next : g.nextToken? v = some node.uses.nextToken :=
          nextToken?_eq_some_iff.2 ⟨p, node, hp, hn, rfl⟩
        refine .inr ⟨p, node.uses.nextToken, hp, next, ?_⟩
        rw [record?_link, if_pos ⟨hp, next⟩]
    · have hne : ¬ (x = user ∧ s' = s) := fun h => same ⟨h.1.symm, h.2.symm⟩
      rcases sym.slot h fun hx => hl' ⟨hx, hne⟩ with rfl | ⟨p, t, hp, ht, hr⟩
      · exact .inl rfl
      · refine .inr ⟨p, t, hp, ht, ?_⟩
        rw [record?_link, if_neg, hr]
        rintro ⟨hvp, next⟩
        rw [record?_nextToken? hvp next] at hr
        cases hr
  · intro p t u h
    rw [record?_link] at h
    split_ifs at h with new
    · obtain rfl := Option.some.inj h
      obtain ⟨o, ho⟩ := Option.isSome_iff_exists.1 held
      refine ⟨fun h => h.2 ⟨rfl, rfl⟩, new.1, ?_⟩
      rw [operand?_link, if_pos ⟨rfl, rfl⟩, ho, Option.map_some, new.2]
    · obtain ⟨hl', hp, hu⟩ := sym.record h
      refine ⟨fun h => hl' h.1, hp, ?_⟩
      rw [operand?_link, if_neg, hu]
      rintro ⟨rfl, rfl⟩
      exact hl' hl

/-- Connecting a slot to a value that can be read keeps the graph symmetric. -/
theorem Symmetric.connect {g : Graph} (sym : g.Symmetric) (user : NodeId) (s : Slot) {v : Value}
    (hv : g.Readable v) : (g.connect user s v).Symmetric := by
  cases held : g.operand? user s with
  | none =>
    rw [connect_of_none held]
    exact sym
  | some old =>
    rw [connect_eq held]
    split_ifs
    · exact sym
    · have forgotten := (symmetricExcept_false_iff.2 sym).forgetUse held not_false
      have still : ((g.forgetUse old).operand? user s).isSome := by
        rw [operand?_forgetUse, held, Option.isSome_some]
      have linked := forgotten.link still (.inr ⟨rfl, rfl⟩) ((rewired_forgetUse g old).readable hv)
      exact symmetricExcept_false_iff.1 (linked.congr fun x s' => by simp)

/-- Connecting slots to values that can be read keeps a graph symmetric, in any number. -/
theorem Patched.symmetric {P : Value → Prop} {g h : Graph} (p : Patched P g h) (sym : g.Symmetric)
    (readable : ∀ v, P v → g.Readable v) : h.Symmetric := by
  induction p with
  | refl => exact sym
  | connect user s goal _ ih =>
    exact ih (sym.connect user s (readable _ goal)) fun v hv =>
      (rewired_connect _ user s _).readable (readable v hv)

theorem Symmetric.clearSlots {g : Graph} (sym : g.Symmetric) (n : NodeId) (slots : List Slot) :
    (g.clearSlots n slots).Symmetric :=
  (patched_clearSlots g n slots).symmetric sym fun _ hv => hv ▸ readable_null g

/-- However far a redirection gets, it leaves a symmetric graph. -/
theorem Symmetric.redirect {g : Graph} (sym : g.Symmetric) (producer : NodeId)
    {goal : Nat → Except Violation Value} (goals : ∀ i v, goal i = .ok v → g.Readable v)
    (tokens : List Token) (count : Nat) : (redirect producer goal tokens g count).1.Symmetric :=
  (patched_redirect goals producer tokens g count).symmetric sym fun _ hv => hv

/-! ## Storing and discarding -/

theorem operand?_withNode (g : Graph) (n : Node) (x : NodeId) (s : Slot) :
    (g.withNode n).operand? x s = if n.id = x then n.operand? s else g.operand? x s := by
  rw [operand?, node?_withNode]
  split_ifs <;> rfl

theorem record?_withNode (g : Graph) (n : Node) (p : NodeId) (t : Token) :
    (g.withNode n).record? p t = if n.id = p then n.uses.get? t else g.record? p t := by
  rw [record?, node?_withNode]
  split_ifs <;> rfl

/-- Slots are linked one after the other until none is loose. -/
theorem SymmetricExcept.foldl_link {g : Graph} {user : NodeId} {operands : List (Slot × Value)}
    (sym : g.SymmetricExcept fun x s => x = user ∧ s ∈ operands.map (·.1))
    (nodup : (operands.map (·.1)).Nodup)
    (held : ∀ s ∈ operands.map (·.1), (g.operand? user s).isSome)
    (readable : ∀ e ∈ operands, g.Readable e.2) :
    (operands.foldl (fun g e => g.link user e.1 e.2) g).Symmetric := by
  induction operands generalizing g with
  | nil => exact symmetricExcept_false_iff.1 (sym.congr fun x s => by simp)
  | cons e operands ih =>
    obtain ⟨s, v⟩ := e
    rw [List.map_cons, List.nodup_cons] at nodup
    rw [List.map_cons, List.forall_mem_cons] at held
    rw [List.forall_mem_cons] at readable
    have linked := sym.link held.1 ⟨rfl, by simp⟩ readable.1
    refine ih (linked.congr fun x s' => ?_) nodup.2 (fun s' hs' => ?_) fun e he =>
      (rewired_link g user s v).readable (readable.2 e he)
    · simp only [List.map_cons, List.mem_cons]
      constructor
      · rintro ⟨⟨rfl, rfl | hs'⟩, hne⟩
        · exact absurd ⟨rfl, rfl⟩ hne
        · exact ⟨rfl, hs'⟩
      · rintro ⟨rfl, hs'⟩
        exact ⟨⟨rfl, .inr hs'⟩, fun h => nodup.1 (h.2 ▸ hs')⟩
    · have before := held.2 s' hs'
      rw [operand?_link]
      split_ifs <;> simpa using before

/-- A free node is stored with loose slots, which are then linked one after the other. -/
theorem store_eq {g : Graph} {n : Node} (absent : g.node? n.id = none)
    (readable : ∀ e ∈ n.operands, g.Readable e.2) (f : FuncId) (before? : Option NodeId) :
    g.store f n before? =
      (n.operands.foldl (fun g e => g.link n.id e.1 e.2)
        (g.withNode { n with parent? := some f })).modifyRoster f (·.insert? n.id before?) := by
  have stored := withNode_linkOperands (n := { n with parent? := some f }) absent readable
  have id := id_linkOperands n.operands g { n with parent? := some f }
  generalize hl : linkOperands n.operands g { n with parent? := some f } = linked at stored id
  calc g.store f n before?
      = (linked.1.withNode linked.2).modifyRoster f (·.insert? linked.2.id before?) := by
        unfold store
        rw [hl]
        rfl
    _ = _ := by rw [stored, id]

/-- Storing is putting the node there, rewiring and listing. -/
theorem exists_rewired_store {g : Graph} {n : Node} (absent : g.node? n.id = none)
    (readable : ∀ e ∈ n.operands, g.Readable e.2) (f : FuncId) (before? : Option NodeId) :
    ∃ k, (g.withNode { n with parent? := some f }).Rewired k ∧
      g.store f n before? = k.modifyRoster f (·.insert? n.id before?) :=
  ⟨_, rewired_foldl_link _ _ _, store_eq absent readable f before?⟩

theorem Symmetric.modifyRoster {g : Graph} (sym : g.Symmetric) (f : FuncId)
    (change : Roster → Option Roster) : (g.modifyRoster f change).Symmetric :=
  ⟨sym.slot, sym.record⟩

/-- A free node under a new identity leaves the graph symmetric but for the slots that read. -/
theorem SymmetricExcept.withNode {g : Graph} (sym : g.Symmetric) {n : Node} (free : n.Unlinked)
    (absent : g.node? n.id = none) :
    (g.withNode n).SymmetricExcept fun x s => x = n.id ∧ s ∈ n.operands.map (·.1) := by
  have absentUser {x : NodeId} {s : Slot} {o : Operand} (h : g.operand? x s = some o) :
      n.id ≠ x := by
    rintro rfl
    simp [operand?, absent] at h
  have absentOwner {p : NodeId} {t : Token} {u : Use} (h : g.record? p t = some u) : n.id ≠ p := by
    rintro rfl
    simp [record?, absent] at h
  constructor
  · intro x s o h hl
    rw [operand?_withNode] at h
    split_ifs at h with hx
    · obtain rfl : n.id = x := hx
      have unread : o.value = .null := by
        by_contra hv
        exact hl ⟨rfl, List.mem_map.2 ⟨(s, o.value), Node.mem_operands.2 ⟨hv, o, h, rfl⟩, rfl⟩⟩
      have token := free.token h
      cases o
      simp_all [Linked, Operand.unlinked]
    · rcases sym.slot h with rfl | ⟨p, t, hp, ht, hr⟩
      · exact .inl rfl
      · refine .inr ⟨p, t, hp, ht, ?_⟩
        rw [record?_withNode, if_neg (absentOwner hr), hr]
  · intro p t u h
    rw [record?_withNode] at h
    split_ifs at h with hp
    · simp [free.uses, UseList.get?_empty] at h
    · obtain ⟨hv, held⟩ := sym.record h
      have ne := absentUser held
      exact ⟨fun h => ne h.1.symm, hv, by rw [operand?_withNode, if_neg ne, held]⟩

theorem Readable.withNode {g : Graph} {v : Value} (hv : g.Readable v) (n : Node) :
    (g.withNode n).Readable v := by
  intro p hp
  rw [contains_eq, node?_withNode]
  split_ifs
  · rfl
  · rw [← contains_eq]
    exact hv p hp

/-- Storing a free node whose operands can be read keeps the graph symmetric. -/
theorem Symmetric.store {g : Graph} (sym : g.Symmetric) {n : Node} (free : n.Unlinked)
    (absent : g.node? n.id = none) (readable : ∀ e ∈ n.operands, g.Readable e.2) (f : FuncId)
    (before? : Option NodeId) : (g.store f n before?).Symmetric := by
  rw [store_eq absent readable]
  refine Symmetric.modifyRoster ?_ f _
  have owned : Node.Unlinked { n with parent? := some f } := ⟨free.uses, free.token⟩
  refine (SymmetricExcept.withNode sym owned absent).foldl_link n.nodup_operands (fun s hs => ?_)
    fun e he => (readable e he).withNode _
  obtain ⟨e, he, rfl⟩ := List.mem_map.1 hs
  obtain ⟨-, o, ho, -⟩ := Node.mem_operands.1 he
  rw [operand?_withNode, if_pos rfl]
  exact Option.isSome_iff_exists.2 ⟨o, ho⟩

theorem node?_discard (g : Graph) (f : FuncId) (n m : NodeId) :
    (g.discard f n).node? m = if n = m then none else g.node? m := by
  simp only [discard, modifyRoster, node?, Std.ExtTreeMap.getElem?_erase, NodeId.compare_eq_iff]

theorem operand?_discard (g : Graph) (f : FuncId) (n x : NodeId) (s : Slot) :
    (g.discard f n).operand? x s = if n = x then none else g.operand? x s := by
  rw [operand?, node?_discard]
  split_ifs <;> rfl

/-- Discarding a node that reads nothing and that nothing reads keeps the graph symmetric. -/
theorem Symmetric.discard {g : Graph} (sym : g.Symmetric) (f : FuncId) {n : NodeId}
    (idle : ∀ s v, g.reads? n s = some v → v = .null)
    (unread : ∀ user s v, g.reads? user s = some v → v.node? ≠ some n) :
    (g.discard f n).Symmetric := by
  have record (p : NodeId) (t : Token) :
      (g.discard f n).record? p t = if n = p then none else g.record? p t := by
    rw [record?, node?_discard]
    split_ifs <;> rfl
  constructor
  · intro x s o h
    rw [operand?_discard] at h
    split_ifs at h with hx
    rcases sym.slot h with rfl | ⟨p, t, hp, ht, hr⟩
    · exact .inl rfl
    · refine .inr ⟨p, t, hp, ht, ?_⟩
      rw [record, if_neg, hr]
      rintro rfl
      exact unread x s o.value (by rw [reads?, h, Option.map_some]) hp
  · intro p t u h
    rw [record] at h
    split_ifs at h with hp
    obtain ⟨hv, held⟩ := sym.record h
    refine ⟨hv, ?_⟩
    rw [operand?_discard, if_neg, held]
    rintro rfl
    have null := idle u.slot u.value (by rw [reads?, held, Option.map_some])
    exact Value.ne_null_of_node? hv null

end Graph

end Dataflow
