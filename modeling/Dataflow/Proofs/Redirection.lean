import Dataflow.Proofs.Symmetry

/-!
# Redirections

In a symmetric graph a redirection finds every collected record still in place when its turn comes,
and the slot of the record holding the recorded value: it connects the slots of the records to their
goals, one after the other, and no internal check fails (`Symmetric.redirect_eq`). Hence replacing
the uses of a value substitutes it in every slot (`Symmetric.reads?_replaceUses`), and clearing the
uses of a node disconnects every slot that reads it (`Symmetric.reads?_clearUses`).
-/

namespace Dataflow

/-- The records of the uses of result `i`, or of all uses when no result is given. -/
def UseList.recordsOf (l : UseList) (i? : Option Nat) : List Use :=
  l.toList.filter fun u => i?.all (u.value.index == ·)

theorem UseList.mem_recordsOf {l : UseList} {i? : Option Nat} {u : Use} :
    u ∈ l.recordsOf i? ↔ (∃ t, l.get? t = some u) ∧ ∀ i ∈ i?, u.value.index = i := by
  simp only [recordsOf, List.mem_filter, toList_eq, List.mem_map, Prod.exists, get?_eq_some_iff,
    exists_eq_right]
  cases i? <;> simp

namespace Graph

/-! ## Connecting many slots -/

/-- Connects the slots of records, each to the value chosen for the record. -/
def connectAll (g : Graph) (f : Use → Value) (us : List Use) : Graph :=
  us.foldl (fun g u => g.connect u.user u.slot (f u)) g

theorem patched_connectAll {P : Value → Prop} (g : Graph) {f : Use → Value} {us : List Use}
    (goals : ∀ u ∈ us, P (f u)) : Patched P g (g.connectAll f us) := by
  unfold connectAll
  induction us generalizing g with
  | nil => exact .refl
  | cons u us ih =>
    rw [List.forall_mem_cons] at goals
    exact .connect u.user u.slot goals.1 (ih _ goals.2)

theorem rewired_connectAll (g : Graph) (f : Use → Value) (us : List Use) :
    g.Rewired (g.connectAll f us) :=
  (patched_connectAll (P := fun _ => True) g fun _ _ => trivial).rewired

theorem Symmetric.connectAll {g : Graph} (sym : g.Symmetric) {f : Use → Value} {us : List Use}
    (readable : ∀ u ∈ us, g.Readable (f u)) : (g.connectAll f us).Symmetric :=
  (patched_connectAll g readable).symmetric sym fun _ hv => hv

theorem reads?_connectAll_of_notMem {g : Graph} {f : Use → Value} {us : List Use} {x : NodeId}
    {s : Slot} (other : ∀ u ∈ us, ¬ (u.user = x ∧ u.slot = s)) :
    (g.connectAll f us).reads? x s = g.reads? x s := by
  unfold connectAll
  induction us generalizing g with
  | nil => rfl
  | cons u us ih =>
    rw [List.forall_mem_cons] at other
    rw [List.foldl_cons, ih other.2, reads?_connect, if_neg other.1]

theorem reads?_connectAll_of_mem {g : Graph} {f : Use → Value} {us : List Use}
    (nodup : (us.map fun u => (u.user, u.slot)).Nodup) {u : Use} (hu : u ∈ us) :
    (g.connectAll f us).reads? u.user u.slot = (g.reads? u.user u.slot).map fun _ => f u := by
  unfold connectAll
  induction us generalizing g with
  | nil => cases hu
  | cons w us ih =>
    rw [List.map_cons, List.nodup_cons] at nodup
    rw [List.foldl_cons]
    rcases List.mem_cons.1 hu with rfl | hu
    · have fresh : ∀ w ∈ us, ¬ (w.user = u.user ∧ w.slot = u.slot) := fun w hw same =>
        nodup.1 (List.mem_map.2 ⟨w, hw, Prod.ext same.1 same.2⟩)
      exact (reads?_connectAll_of_notMem fresh).trans (by rw [reads?_connect, if_pos ⟨rfl, rfl⟩])
    · have ne : ¬ (w.user = u.user ∧ w.slot = u.slot) := fun same =>
        nodup.1 (List.mem_map.2 ⟨u, hu, Prod.ext same.1.symm same.2.symm⟩)
      rw [ih nodup.2 hu, reads?_connect, if_neg ne]

/-! ## The records of a node -/

theorem map_record?_tokensOf {g : Graph} {p : NodeId} {node : Node} (stored : g.node? p = some node)
    (i? : Option Nat) :
    (node.uses.tokensOf i?).map (g.record? p) = (node.uses.recordsOf i?).map some := by
  have found : ∀ e ∈ node.uses.entries, g.record? p e.1 = some e.2 := fun e he =>
    record?_eq_some_iff_mem.2 ⟨node, stored, he⟩
  simp only [UseList.tokensOf, UseList.recordsOf, UseList.toList_eq, List.filter_map, List.map_map]
  exact List.map_congr_left fun e he => found e (List.mem_of_mem_filter he)

theorem nodup_tokensOf (l : UseList) (i? : Option Nat) : (l.tokensOf i?).Nodup :=
  l.nodup_token.sublist (List.filter_sublist.map _)

/-- The records of a node are those of distinct slots. -/
theorem Symmetric.nodup_records {g : Graph} (sym : g.Symmetric) {p : NodeId} {node : Node}
    (stored : g.node? p = some node) (i? : Option Nat) :
    ((node.uses.recordsOf i?).map fun u => (u.user, u.slot)).Nodup := by
  have entries : (node.uses.entries.map fun e => (e.2.user, e.2.slot)).Nodup := by
    have tokens := node.uses.nodup_token
    rw [List.Nodup, List.pairwise_map] at tokens ⊢
    refine tokens.imp_of_mem fun {a b} ha hb ne same => ne ?_
    rw [Prod.mk.injEq] at same
    exact (sym.token_unique (record?_eq_some_iff_mem.2 ⟨node, stored, ha⟩)
      (record?_eq_some_iff_mem.2 ⟨node, stored, hb⟩) same.1 same.2).2.1
  have listed : (node.uses.toList.map fun u => (u.user, u.slot)) =
      node.uses.entries.map fun e => (e.2.user, e.2.slot) := by
    rw [UseList.toList_eq, List.map_map]
    rfl
  exact (listed ▸ entries).sublist (List.filter_sublist.map _)

/-- The records of a stored node are those of the slots that read it. -/
theorem Symmetric.mem_recordsOf {g : Graph} (sym : g.Symmetric) {p : NodeId} {node : Node}
    (stored : g.node? p = some node) {i? : Option Nat} {u : Use} :
    u ∈ node.uses.recordsOf i? ↔
      g.reads? u.user u.slot = some u.value ∧ u.value.node? = some p ∧ ∀ i ∈ i?, u.value.index = i := by
  have recorded (t : Token) : node.uses.get? t = g.record? p t := by rw [record?, stored]; rfl
  simp only [UseList.mem_recordsOf, recorded, ← and_assoc]
  refine and_congr_left fun _ => ⟨?_, ?_⟩
  · rintro ⟨t, ht⟩
    have hp := (sym.record ht).1
    exact ⟨(sym.reads?_eq_some_iff hp).2 ⟨t, ht⟩, hp⟩
  · rintro ⟨hr, hp⟩
    exact (sym.reads?_eq_some_iff hp).1 hr

/-! ## Redirecting -/

/-- Connecting a slot leaves the records of all other slots in place. -/
theorem Symmetric.record?_connect {g : Graph} (sym : g.Symmetric) {user p : NodeId} {s : Slot}
    {t : Token} {w : Use} (h : g.record? p t = some w) (other : ¬ (w.user = user ∧ w.slot = s))
    (v : Value) : (g.connect user s v).record? p t = some w := by
  cases held : g.operand? user s with
  | none => rw [connect_of_none held, h]
  | some old =>
    rw [connect_eq held]
    split_ifs
    · exact h
    · have kept : (g.forgetUse old).record? p t = some w := by
        rw [record?_forgetUse, if_neg, h]
        rintro ⟨hp, ht⟩
        rcases sym.slot held with rfl | ⟨q, t', hq, ht', hr⟩
        · cases ht
        · obtain rfl := Option.some.inj (hp.symm.trans hq)
          obtain rfl := Option.some.inj (ht.symm.trans ht')
          obtain rfl := Option.some.inj (h.symm.trans hr)
          exact other ⟨rfl, rfl⟩
      rw [record?_link, if_neg, kept]
      rintro ⟨hp, next⟩
      rw [record?_nextToken? hp next] at kept
      cases kept

/-- A redirection of live records connects their slots, if every record has a goal. -/
theorem Symmetric.redirect_eq {g : Graph} (sym : g.Symmetric) {producer : NodeId}
    {goal : Nat → Except Violation Value} {f : Use → Value} {tokens : List Token} {us : List Use}
    (nodup : tokens.Nodup) (live : tokens.map (g.record? producer) = us.map some)
    (goals : ∀ u ∈ us, goal u.value.index = .ok (f u) ∧ g.Readable (f u)) (count : Nat) :
    Graph.redirect producer goal tokens g count = (g.connectAll f us, .ok (count + us.length)) := by
  induction tokens generalizing g us count with
  | nil =>
    obtain rfl : us = [] := by simpa using live
    rfl
  | cons t tokens ih =>
    cases us with
    | nil => simp at live
    | cons u us =>
      rw [List.map_cons, List.map_cons, List.cons.injEq] at live
      rw [List.nodup_cons] at nodup
      rw [List.forall_mem_cons] at goals
      obtain ⟨here, rest⟩ := live
      obtain ⟨⟨goal_eq, readable⟩, goals⟩ := goals
      have held := (sym.record here).2
      obtain ⟨user, stored, slot⟩ := operand?_eq_some_iff.1 held
      -- the other records stay live, since they are those of other slots
      have rest' : tokens.map ((g.connect u.user u.slot (f u)).record? producer) = us.map some := by
        rw [← rest]
        refine List.map_congr_left fun t' ht' => ?_
        have listed : g.record? producer t' ∈ us.map some := rest ▸ List.mem_map_of_mem ht'
        obtain ⟨w, -, hw⟩ := List.mem_map.1 listed
        rw [← hw]
        refine sym.record?_connect hw.symm (fun same => nodup.1 ?_) _
        exact (sym.token_unique hw.symm here same.1 same.2).2.1 ▸ ht'
      have step := ih (sym.connect u.user u.slot readable) nodup.2 rest' (fun w hw =>
        ⟨(goals w hw).1, (rewired_connect g u.user u.slot (f u)).readable (goals w hw).2⟩) (count + 1)
      have total : count + 1 + us.length = count + (us.length + 1) := by omega
      unfold record? at here
      simp only [Graph.redirect, here, stored, slot, goal_eq, ne_eq, not_true_eq_false, if_false, step]
      rw [List.length_cons, total]
      rfl

/-- Redirecting collected uses connects the slots of their records. -/
theorem Symmetric.redirectUses_eq {g : Graph} (sym : g.Symmetric) {p : NodeId} {node : Node}
    (stored : g.node? p = some node) (i? : Option Nat)
    (goal : Nat → Except Violation Value) (f : Use → Value)
    (goals : ∀ u ∈ node.uses.recordsOf i?, goal u.value.index = .ok (f u) ∧ g.Readable (f u)) :
    g.redirectUses p (node.uses.tokensOf i?) goal =
      (g.connectAll f (node.uses.recordsOf i?), .ok (node.uses.recordsOf i?).length) := by
  have := sym.redirect_eq (nodup_tokensOf node.uses i?) (map_record?_tokensOf stored i?) goals 0
  rw [redirectUses, this, Nat.zero_add]
  rfl

/-- The slots that read the collected uses read their goals afterwards. -/
theorem Symmetric.reads?_connectAll {g : Graph} (sym : g.Symmetric) {p : NodeId} {node : Node}
    (stored : g.node? p = some node) (i? : Option Nat) (f : Value → Value) (x : NodeId) (s : Slot) :
    (g.connectAll (fun u => f u.value) (node.uses.recordsOf i?)).reads? x s =
      (g.reads? x s).map fun v =>
        if v.node? = some p ∧ ∀ i ∈ i?, v.index = i then f v else v := by
  cases hv : g.reads? x s with
  | none =>
    rw [reads?_connectAll_of_notMem, hv]
    · rfl
    · rintro u hu ⟨rfl, rfl⟩
      rw [((sym.mem_recordsOf stored).1 hu).1] at hv
      cases hv
  | some v =>
    rw [Option.map_some]
    split_ifs with h
    · have hu : ⟨x, s, v⟩ ∈ node.uses.recordsOf i? := (sym.mem_recordsOf stored).2 ⟨hv, h⟩
      have := reads?_connectAll_of_mem (f := fun u => f u.value) (sym.nodup_records stored i?) hu
        (g := g)
      rw [this, hv, Option.map_some]
    · rw [reads?_connectAll_of_notMem, hv]
      rintro u hu ⟨rfl, rfl⟩
      have read := (sym.mem_recordsOf stored).1 hu
      obtain rfl := Option.some.inj (hv.symm.trans read.1)
      exact h read.2

/-! ## Replacing and clearing uses -/

theorem nodeOrRefusal_eq_ok_iff {g : Graph} {n : NodeId} {node : Node} :
    g.nodeOrRefusal n = .ok node ↔ g.node? n = some node := by
  unfold nodeOrRefusal
  cases g.node? n <;> simp

theorem nodeOrRefusal_eq_error_iff {g : Graph} {n : NodeId} {e : Refusal} :
    g.nodeOrRefusal n = .error e ↔ ¬ g.contains n ∧ e = .unknownNode n := by
  rw [not_contains_iff, nodeOrRefusal]
  cases g.node? n <;> simp [eq_comm]

theorem replaceUses_self {g : Graph} {p : NodeId} {node : Node} (stored : g.node? p = some node)
    (i : Nat) : g.replaceUses (.result p i) (.result p i) = (g, .ok 0) := by
  have found := nodeOrRefusal_eq_ok_iff.2 stored
  have checked : g.checkReadable p (.result p i) = .ok () := by
    refine checkReadable_eq_ok_iff.2 fun q hq => ?_
    obtain rfl := Option.some.inj hq
    exact contains_of_node? stored
  simp [replaceUses, guarded, found, checked, bind, Except.bind, pure, Except.pure]

/-- Replacing the uses of a value connects the slots that read it, one after the other. -/
theorem Symmetric.replaceUses_eq {g : Graph} (sym : g.Symmetric) {p : NodeId} {node : Node}
    (stored : g.node? p = some node) (i : Nat) {target : Value} (readable : g.Readable target)
    (ne : .result p i ≠ target) :
    g.replaceUses (.result p i) target =
      (g.connectAll (fun _ => target) (node.uses.recordsOf i),
        .ok (node.uses.recordsOf i).length) := by
  have redirected := sym.redirectUses_eq stored (some i) (fun _ => .ok target)
    (fun _ => target) fun _ _ => ⟨rfl, readable⟩
  have found := nodeOrRefusal_eq_ok_iff.2 stored
  have checked : g.checkReadable p target = .ok () := checkReadable_eq_ok_iff.2 readable
  simp only [replaceUses, guarded, found, checked, bind, Except.bind, pure, Except.pure, ne, if_false]
  exact redirected

/-- Replacing the uses of `source` by `target` substitutes `target` for `source` in every slot. -/
theorem Symmetric.reads?_replaceUses {g : Graph} (sym : g.Symmetric) {source target : Value}
    {p : NodeId} (hp : source.node? = some p) (stored : g.contains p)
    (readable : g.Readable target) (x : NodeId) (s : Slot) :
    (g.replaceUses source target).1.reads? x s =
      (g.reads? x s).map fun v => if v = source then target else v := by
  obtain ⟨node, stored⟩ := contains_iff.1 stored
  cases source with
  | null => cases hp
  | result q i =>
    obtain rfl := Option.some.inj hp
    by_cases ne : Value.result q i = target
    · subst ne
      rw [replaceUses_self stored]
      cases g.reads? x s with
      | none => rfl
      | some v =>
        rw [Option.map_some]
        split_ifs with h
        · rw [h]
        · rfl
    · rw [sym.replaceUses_eq stored i readable ne,
        sym.reads?_connectAll stored (some i) fun _ => target]
      congr 1
      funext v
      cases v <;> simp [Value.node?, Value.index]

/-- Clearing the uses of a node disconnects the slots that read it, one after the other. -/
theorem Symmetric.clearUses_eq {g : Graph} (sym : g.Symmetric) {n : NodeId} {node : Node}
    (stored : g.node? n = some node) :
    g.clearUses n =
      (g.connectAll (fun _ => .null) (node.uses.recordsOf none),
        .ok (node.uses.recordsOf none).length) := by
  have redirected := sym.redirectUses_eq stored none (fun _ => .ok .null)
    (fun _ => .null) fun _ _ => ⟨rfl, readable_null g⟩
  simp only [clearUses, guarded, nodeOrRefusal_eq_ok_iff.2 stored]
  exact redirected

/-- After clearing the uses of a node no slot reads it, and every other slot reads what it read. -/
theorem Symmetric.reads?_clearUses {g : Graph} (sym : g.Symmetric) {n : NodeId}
    (stored : g.contains n) (x : NodeId) (s : Slot) :
    (g.clearUses n).1.reads? x s =
      (g.reads? x s).map fun v => if v.node? = some n then .null else v := by
  obtain ⟨node, stored⟩ := contains_iff.1 stored
  rw [sym.clearUses_eq stored, sym.reads?_connectAll stored none fun _ => .null]
  congr 1
  funext v
  simp

end Graph

end Dataflow
