import Dataflow.Proofs.UseOrder
import Dataflow.Proofs.Verification
import Dataflow.Proofs.UseDef
import Mathlib.Data.Set.Card

/-!
# Handing over uses

When the slots of some records of a node are connected elsewhere, these records leave the list of the
node and turn up, in the same order, at the ends of the lists of the nodes that are read instead;
nothing else changes (`Graph.Redirected`). Replacing the uses of a value does this for all of its
records. Replacing a node does it for the records in front of the first one that reads a result which
the replacement lacks: there the edit stops, and leaves a graph that is symmetric still.
-/

namespace Dataflow

/-- A list splits in front of its first element without a property. -/
theorem exists_split_of_first {α : Type} (p : α → Prop) [DecidablePred p] (l : List α) :
    ∃ front back, l = front ++ back ∧ (∀ a ∈ front, p a) ∧ ∀ a ∈ back.head?, ¬ p a := by
  refine ⟨l.takeWhile p, l.dropWhile p, List.takeWhile_append_dropWhile.symm, fun a ha => ?_,
    fun a ha => ?_⟩
  · exact of_decide_eq_true (List.all_eq_true.1 List.all_takeWhile a ha)
  · have := List.head?_dropWhile_not (fun a => decide (p a)) l
    rw [Option.mem_def.1 ha] at this
    exact of_decide_eq_false this

namespace Graph

/-! ## Replacing uses -/

theorem usesOf_sublist (g : Graph) (p : NodeId) (i : Nat) :
    (g.usesOf (.result p i)).Sublist (g.allUses p) := by
  cases stored : g.node? p with
  | none => simp [usesOf, Value.node?, stored]
  | some node =>
    rw [usesOf_result stored, allUses_of_stored stored]
    exact List.filter_sublist

/-- The uses of a value are as many as the slots that read it. -/
theorem Symmetric.ncard_reads {g : Graph} (sym : g.Symmetric) {v : Value} (ne : v ≠ .null) :
    {e : NodeId × Slot | g.reads? e.1 e.2 = some v}.ncard = (g.usesOf v).length := by
  have same : {e : NodeId × Slot | g.reads? e.1 e.2 = some v} =
      ((g.usesOf v).map Use.place).toFinset := by
    ext ⟨x, s⟩
    rw [Set.mem_ofPred_eq, List.coe_toFinset, Set.mem_ofPred_eq, List.mem_map]
    constructor
    · intro read
      exact ⟨⟨x, s, v⟩, (sym.mem_usesOf ne).2 ⟨rfl, read⟩, rfl⟩
    · rintro ⟨u, hu, here⟩
      obtain ⟨rfl, rfl⟩ := Prod.mk.inj here
      exact ((sym.mem_usesOf ne).1 hu).2
  have nodup : ((g.usesOf v).map Use.place).Nodup := sym.nodup_usesOf v
  rw [same, Set.ncard_coe_finset, List.toFinset_card_of_nodup nodup, List.length_map]

/-- Replacing the uses of a value redirects its records. -/
theorem Symmetric.redirected_replaceUses {g : Graph} (sym : g.Symmetric) {p : NodeId}
    (stored : g.contains p) (i : Nat) {target : Value} (readable : g.Readable target)
    (ne : .result p i ≠ target) :
    ∃ h, g.replaceUses (.result p i) target = (h, .ok (g.usesOf (.result p i)).length) ∧
      g.Redirected p (g.usesOf (.result p i)) (fun _ => target) h := by
  obtain ⟨node, stored⟩ := contains_iff.1 stored
  have replaced := sym.replaceUses_eq stored i readable ne
  rw [← usesOf_result stored] at replaced
  refine ⟨_, replaced, ?_⟩
  refine sym.redirected_connectAll (usesOf_sublist g p i) (fun u hu => ?_) fun _ _ => readable
  rw [((sym.mem_usesOf Value.noConfusion).1 hu).1]
  exact ne

/-! ## Redirections that stop -/

theorem redirect_append (producer : NodeId) (goal : Nat → Except Violation Value)
    (tokens rest : List Token) (g : Graph) (count : Nat) :
    redirect producer goal (tokens ++ rest) g count =
      match redirect producer goal tokens g count with
      | (g, .error e) => (g, .error e)
      | (g, .ok count) => redirect producer goal rest g count := by
  induction tokens generalizing g count with
  | nil => rfl
  | cons t tokens ih =>
    rw [List.cons_append, redirect, redirect]
    split
    · exact ih g count
    · split
      · rfl
      · split
        · rfl
        · split_ifs
          · rfl
          · split
            · rfl
            · exact ih _ _

/-- Connecting slots leaves the records of all other slots in place. -/
theorem Symmetric.record?_connectAll {g : Graph} (sym : g.Symmetric) {f : Use → Value}
    {us : List Use} (readable : ∀ u ∈ us, g.Readable (f u)) {p : NodeId} {t : Token} {w : Use}
    (recorded : g.record? p t = some w) (other : w.place ∉ us.map Use.place) :
    (g.connectAll f us).record? p t = some w := by
  unfold Graph.connectAll
  induction us generalizing g with
  | nil => exact recorded
  | cons u us ih =>
    rw [List.forall_mem_cons] at readable
    rw [List.map_cons, List.mem_cons, not_or] at other
    refine ih (sym.connect u.user u.slot readable.1) (fun w hw =>
      (rewired_connect g u.user u.slot (f u)).readable (readable.2 w hw)) ?_ other.2
    exact sym.record?_connect recorded (fun same => other.1 (Prod.ext same.1 same.2)) _

/-- A redirection stops at a live record without a goal. -/
theorem Symmetric.redirect_cons_error {g : Graph} (sym : g.Symmetric) {producer : NodeId}
    {goal : Nat → Except Violation Value} {t : Token} {u : Use} {e : Violation}
    (recorded : g.record? producer t = some u) (failed : goal u.value.index = .error e)
    (tokens : List Token) (count : Nat) :
    Graph.redirect producer goal (t :: tokens) g count = (g, .error e) := by
  obtain ⟨user, stored, held⟩ := operand?_eq_some_iff.1 (sym.record recorded).2
  unfold record? at recorded
  simp only [Graph.redirect, recorded, stored, held, ne_eq, not_true_eq_false, if_false, failed]

/-- The records in front of the first one without a goal are redirected, and no others. -/
theorem Symmetric.redirect_stops {g : Graph} (sym : g.Symmetric) {producer : NodeId}
    {goal : Nat → Except Violation Value} {f : Use → Value} {tokens : List Token}
    (nodup : tokens.Nodup) {us vs : List Use} {u : Use} {e : Violation}
    (live : tokens.map (g.record? producer) = (us ++ u :: vs).map some)
    (goals : ∀ u ∈ us, goal u.value.index = .ok (f u) ∧ g.Readable (f u))
    (failed : goal u.value.index = .error e) (count : Nat) :
    Graph.redirect producer goal tokens g count = (g.connectAll f us, .error e) := by
  rw [List.map_append, List.map_cons] at live
  obtain ⟨front, rest, rfl, here, live⟩ := List.map_eq_append_iff.1 live
  obtain ⟨t, later, rfl, recorded, -⟩ := List.map_eq_cons_iff.1 live
  rw [List.nodup_append] at nodup
  have other : u.place ∉ us.map Use.place := by
    intro same
    obtain ⟨w, hw, same⟩ := List.mem_map.1 same
    obtain ⟨t', ht', recorded'⟩ := List.mem_map.1 (here ▸ List.mem_map_of_mem hw)
    obtain ⟨user, slot⟩ := Prod.mk.inj same
    obtain rfl := (sym.token_unique recorded' recorded user slot).2.1
    exact nodup.2.2 _ ht' _ (List.mem_cons_self ..) rfl
  have readable : ∀ u ∈ us, g.Readable (f u) := fun u hu => (goals u hu).2
  rw [redirect_append, sym.redirect_eq nodup.1 here goals]
  exact (sym.connectAll readable).redirect_cons_error
    (sym.record?_connectAll readable recorded other) failed later _

/-! ## Replacing a node -/

/-- What is answered when `old` is replaced by `new` and the records `handed` have been handed over:
their number, unless a record was left because `new` lacks the result that it reads. -/
def handoverOutcome (old new : NodeId) (handed : List Use) : List Use → Except Fault Nat
  | [] => .ok handed.length
  | u :: _ => .error (.violated (.noCounterpart new u.value.index old))

theorem replaceNode_self {g : Graph} {n : NodeId} (stored : g.contains n) :
    g.replaceNode n n = (g, .ok 0) := by
  obtain ⟨node, stored⟩ := contains_iff.1 stored
  simp [replaceNode, guarded, nodeOrRefusal_eq_ok_iff.2 stored, bind, Except.bind, pure, Except.pure]

/-- The slots that read `old` are connected to `new` up to the first one that reads a result which
`new` lacks. -/
theorem Symmetric.replaceNode_eq {g : Graph} (sym : g.Symmetric) {old new : NodeId}
    (stored : g.contains old) {replacement : Node} (found : g.node? new = some replacement)
    (ne : old ≠ new) {handed kept : List Use} (split : g.allUses old = handed ++ kept)
    (below : ∀ u ∈ handed, u.value.index < replacement.results.length)
    (above : ∀ u ∈ kept.head?, replacement.results.length ≤ u.value.index) :
    g.replaceNode old new =
      (g.connectAll (fun u => .result new u.value.index) handed,
        handoverOutcome old new handed kept) := by
  obtain ⟨node, stored⟩ := contains_iff.1 stored
  have live := map_record?_tokensOf stored none
  have nodup := nodup_tokensOf node.uses none
  rw [UseList.recordsOf_none, ← allUses_of_stored stored, split] at live
  have readable := readable_result (contains_of_node? found)
  simp only [replaceNode, guarded, nodeOrRefusal_eq_ok_iff.2 stored, nodeOrRefusal_eq_ok_iff.2 found,
    bind, Except.bind, pure, Except.pure, ne, if_false, redirectUses]
  cases kept with
  | nil =>
    rw [List.append_nil] at live
    rw [sym.redirect_eq nodup live fun u hu => ⟨if_pos (below u hu), readable _⟩, Nat.zero_add]
    rfl
  | cons u kept =>
    have missing : ¬ u.value.index < replacement.results.length := Nat.not_lt.2 (above u rfl)
    rw [sym.redirect_stops nodup live (fun u hu => ⟨if_pos (below u hu), readable _⟩)
      (if_neg missing)]
    rfl

/-- However far it gets, replacing a node redirects the records that it has handed over. -/
theorem Symmetric.redirected_handed {g : Graph} (sym : g.Symmetric) {old new : NodeId}
    (found : g.contains new) (ne : old ≠ new) {handed kept : List Use}
    (split : g.allUses old = handed ++ kept) :
    g.Redirected old handed (fun u => .result new u.value.index)
      (g.connectAll (fun u => .result new u.value.index) handed) := by
  have listed : handed.Sublist (g.allUses old) := split ▸ List.sublist_append_left handed kept
  refine sym.redirected_connectAll listed (fun u hu same => ?_) fun u _ => readable_result found _
  have hp := (sym.mem_allUses.1 (listed.subset hu)).2
  rw [same] at hp
  exact ne (Option.some.inj hp).symm

/-- Replacing a node leaves the graph as it is, or redirects slots that read the node. -/
theorem Symmetric.replaceNode_cases {g : Graph} (sym : g.Symmetric) (old new : NodeId) :
    (g.replaceNode old new).1 = g ∨ old ≠ new ∧ ∃ handed, handed ⊆ g.allUses old ∧
      g.Redirected old handed (fun u => .result new u.value.index) (g.replaceNode old new).1 := by
  by_cases found : g.contains old ∧ g.contains new
  · obtain ⟨found, found'⟩ := found
    by_cases same : old = new
    · rw [← same, replaceNode_self found]
      exact .inl rfl
    · obtain ⟨replacement, stored⟩ := contains_iff.1 found'
      obtain ⟨handed, kept, split, below, above⟩ := exists_split_of_first
        (fun u : Use => u.value.index < replacement.results.length) (g.allUses old)
      simp only [Nat.not_lt] at above
      rw [sym.replaceNode_eq found stored same split below above]
      exact .inr ⟨same, handed, split ▸ List.subset_append_left handed kept,
        sym.redirected_handed found' same split⟩
  · refine .inl (guarded_of_forall (P := fun h => h = g) rfl fun a passed => ?_)
    obtain ⟨node, stored, passed⟩ := bind_eq_ok_iff.1 passed
    obtain ⟨replacement, stored', -⟩ := bind_eq_ok_iff.1 passed
    exact absurd ⟨contains_of_node? (nodeOrRefusal_eq_ok_iff.1 stored),
      contains_of_node? (nodeOrRefusal_eq_ok_iff.1 stored')⟩ found

end Graph

namespace Workspace

/-! ## Reachable workspaces -/

/-- Replacing the uses of a value by another one substitutes it in every slot; its records, and no
others, leave their list and join that of the new value, in order. -/
theorem Reachable.replaceUses_substitutes {w : Workspace} (reach : w.Reachable) {p : NodeId}
    (stored : w.graph.contains p) (i : Nat) {target : Value} (readable : w.graph.Readable target)
    (ne : .result p i ≠ target) :
    ∃ h, w.graph.replaceUses (.result p i) target =
        (h, .ok {e : NodeId × Slot | w.graph.reads? e.1 e.2 = some (.result p i)}.ncard) ∧
      w.graph.Rewired h ∧
      (∀ x s, h.reads? x s =
        (w.graph.reads? x s).map fun v => if v = .result p i then target else v) ∧
      (∀ x s, w.graph.reads? x s ≠ some (.result p i) → h.operand? x s = w.graph.operand? x s) ∧
      ∀ q, h.allUses q =
        (if q = p then (w.graph.allUses q).filter (·.value ≠ .result p i)
          else w.graph.allUses q) ++
        if target.node? = some q then
          (w.graph.usesOf (.result p i)).map fun u => { u with value := target }
        else [] := by
  have sym := reach.consistent.coherent.symmetric
  have mem {u : Use} := sym.mem_usesOf (v := .result p i) Value.noConfusion (u := u)
  obtain ⟨h, replaced, redirected⟩ := sym.redirected_replaceUses stored i readable ne
  have hp : (Value.result p i).node? = some p := rfl
  have reads := sym.reads?_replaceUses hp stored readable
  rw [replaced] at reads
  refine ⟨h, ?_, redirected.rewired, reads, fun x s other => ?_, fun q => ?_⟩
  · rw [replaced, sym.ncard_reads Value.noConfusion]
  · refine redirected.operand x s fun listed => ?_
    obtain ⟨u, hu, here⟩ := List.mem_map.1 listed
    obtain ⟨rfl, rfl⟩ := Prod.mk.inj here
    exact other (mem.1 hu).2
  · rw [redirected.uses]
    congr 1
    · split_ifs with hq
      · subst hq
        refine List.filter_congr fun u hu => ?_
        rw [decide_eq_decide, not_iff_not, mem]
        obtain ⟨read, -⟩ := sym.mem_allUses.1 hu
        exact ⟨And.left, fun value => ⟨value, value ▸ read⟩⟩
      · rfl
    · split_ifs with hq <;> simp [hq]

theorem replaceUses_substitutes_diamond :
    (empty.run diamond).graph.contains ⟨1⟩ ∧
      (empty.run diamond).graph.Readable (.result ⟨1⟩ 1) ∧
      (.result ⟨1⟩ 0 : Value) ≠ .result ⟨1⟩ 1 ∧
      ∃ h k, (empty.run diamond).graph.replaceUses (.result ⟨1⟩ 0) (.result ⟨1⟩ 1) = (h, .ok k) ∧
        h.allUses ⟨1⟩ =
          [⟨⟨3⟩, .input 0, .result ⟨1⟩ 1⟩, ⟨⟨3⟩, .input 1, .result ⟨1⟩ 1⟩] := by
  have stored : (empty.run diamond).graph.contains ⟨1⟩ := by decide
  have readable := Graph.readable_result stored 1
  obtain ⟨h, done, -, -, -, uses⟩ :=
    Reachable.replaceUses_substitutes reachable_diamond stored 0 readable (by decide)
  refine ⟨stored, readable, by decide, h, _, done, ?_⟩
  rw [uses]
  decide

/-- Replacing the uses of results one after the other substitutes them in every slot. -/
theorem Consistent.reads?_run_replaceUses {w : Workspace} (co : w.Consistent) {old new : NodeId}
    (stored : w.graph.contains old) (found : w.graph.contains new) (ne : old ≠ new) (is : List Nat)
    (x : NodeId) (s : Slot) :
    (w.run (is.map fun i => .replaceUses (.result old i) (.result new i))).graph.reads? x s =
      (w.graph.reads? x s).map fun v =>
        if v.node? = some old ∧ v.index ∈ is then .result new v.index else v := by
  unfold Workspace.run
  induction is generalizing w with
  | nil => simp
  | cons i is ih =>
    have r := Graph.rewired_replaceUses w.graph (.result old i) (.result new i)
    have readable := Graph.readable_result found i
    have hp : (Value.result old i).node? = some old := rfl
    have step := co.coherent.symmetric.reads?_replaceUses hp stored readable x s
    have rest := ih (co.apply (e := .replaceUses (.result old i) (.result new i)) rfl).consistent
      ((r.contains old).trans stored) ((r.contains new).trans found)
    rw [List.map_cons, List.foldl_cons, rest]
    change Option.map _ ((w.graph.replaceUses _ _).1.reads? x s) = _
    rw [step, Option.map_map]
    congr 1
    funext v
    cases v with
    | null => simp [Value.node?]
    | result q j =>
      by_cases hq : q = old <;> by_cases hj : j = i <;>
        simp [Value.node?, Value.index, hq, hj, ne.symm]

/-- Replacing a node hands over its records up to the first one that reads a result which the
replacement lacks, and stops there. The graph is symmetric however far it gets, and if it gets to the
end, replacing the uses of the single results would have led to the same operands. -/
theorem Reachable.replaceNode_hands_over {w : Workspace} (reach : w.Reachable) {old new : NodeId}
    {replacement : Node} (stored : w.graph.contains old)
    (found : w.graph.node? new = some replacement) :
    w.graph.replaceNode old old = (w.graph, .ok 0) ∧
    (old ≠ new → ∃ handed kept h, w.graph.allUses old = handed ++ kept ∧
      (∀ u ∈ handed, u.value.index < replacement.results.length) ∧
      (∀ u ∈ kept.head?, replacement.results.length ≤ u.value.index) ∧
      w.graph.replaceNode old new = (h, Graph.handoverOutcome old new handed kept) ∧
      w.graph.Rewired h ∧ h.Symmetric ∧
      (∀ u ∈ handed, h.reads? u.user u.slot = some (.result new u.value.index)) ∧
      (∀ x s, (∀ u ∈ handed, ¬ (u.user = x ∧ u.slot = s)) →
        h.operand? x s = w.graph.operand? x s) ∧
      h.allUses old = kept ∧
      h.allUses new = w.graph.allUses new ++
        handed.map (fun u => { u with value := .result new u.value.index }) ∧
      (∀ q, q ≠ old → q ≠ new → h.allUses q = w.graph.allUses q) ∧
      (kept = [] → ∀ is : List Nat, (∀ u ∈ handed, u.value.index ∈ is) → ∀ x s,
        (w.run (is.map fun i => .replaceUses (.result old i) (.result new i))).graph.reads? x s =
          h.reads? x s)) := by
  have co := reach.consistent
  have sym := co.coherent.symmetric
  refine ⟨Graph.replaceNode_self stored, fun ne => ?_⟩
  obtain ⟨handed, kept, split, below, above⟩ := exists_split_of_first
    (fun u : Use => u.value.index < replacement.results.length) (w.graph.allUses old)
  simp only [Nat.not_lt] at above
  have found' := Graph.contains_of_node? found
  have redirected := sym.redirected_handed found' ne split
  have replaced := sym.replaceNode_eq stored found ne split below above
  generalize w.graph.connectAll (fun u => .result new u.value.index) handed = h at *
  refine ⟨handed, kept, h, split, below, above, replaced, redirected.rewired, redirected.symmetric,
    redirected.reads, fun x s other => ?_, ?_, ?_, fun q old' new' => ?_, fun all is used x s => ?_⟩
  · refine redirected.operand x s fun listed => ?_
    obtain ⟨u, hu, here⟩ := List.mem_map.1 listed
    exact other u hu (Prod.mk.inj here)
  · exact redirected.allUses_source sym split fun u _ same => ne (Option.some.inj same).symm
  · exact redirected.allUses_target ne.symm fun _ _ => rfl
  · exact redirected.allUses_other old' fun u _ same => new' (Option.some.inj same).symm
  · subst all
    rw [List.append_nil] at split
    subst split
    rw [co.reads?_run_replaceUses stored found' ne,
      redirected.reads?_of_all (f := fun v => .result new v.index) sym]
    cases read : w.graph.reads? x s with
    | none => rfl
    | some v =>
      -- a slot that reads the old node has a record, so its result is among the replaced ones
      have replaced : v.node? = some old → v.index ∈ is := fun hp =>
        used ⟨x, s, v⟩ (sym.mem_allUses.2 ⟨read, hp⟩)
      by_cases hp : v.node? = some old <;> simp [hp, replaced]

/-- A history that leaves a node with two results, both used, beside one with a single result. -/
def lopsided : List Edit :=
  let t : TensorType := ⟨.float, [2]⟩
  [.addFunc "main",
    .make { op := .placeholder, name := "x", results := [some t] }, .attach ⟨0⟩ ⟨0⟩ none,
    .make { op := .topK, name := "top", inputs := [.result ⟨0⟩ 0],
            results := [some t, some ⟨.int64, [2]⟩] },
    .attach ⟨1⟩ ⟨0⟩ none,
    .make { op := .relu, name := "a", inputs := [.result ⟨0⟩ 0], results := [some t] },
    .attach ⟨2⟩ ⟨0⟩ none,
    .make { op := .concat, name := "both", inputs := [.result ⟨1⟩ 0, .result ⟨1⟩ 1],
            results := [some t] },
    .attach ⟨3⟩ ⟨0⟩ none]

theorem reachable_lopsided : (empty.run lopsided).Reachable := ⟨lopsided, by decide, rfl⟩

theorem replaceNode_hands_over_half : (empty.run lopsided).graph.contains ⟨1⟩ ∧
    (∃ replacement, (empty.run lopsided).graph.node? ⟨2⟩ = some replacement) ∧
    ∃ h, (empty.run lopsided).graph.replaceNode ⟨1⟩ ⟨2⟩ =
        (h, .error (.violated (.noCounterpart ⟨2⟩ 1 ⟨1⟩))) ∧ h.Symmetric ∧
      h.reads? ⟨3⟩ (.input 0) = some (.result ⟨2⟩ 0) ∧
      h.allUses ⟨1⟩ = [⟨⟨3⟩, .input 1, .result ⟨1⟩ 1⟩] := by
  have stored : (empty.run lopsided).graph.contains ⟨1⟩ := by decide
  have found : (empty.run lopsided).graph.node? ⟨2⟩ = some _ := rfl
  obtain ⟨handed, kept, h, split, below, above, done, -, sym, reads, -, uses, -⟩ :=
    (Reachable.replaceNode_hands_over reachable_lopsided stored found).2 (by decide)
  have listed : (empty.run lopsided).graph.allUses ⟨1⟩ =
      [⟨⟨3⟩, .input 0, .result ⟨1⟩ 0⟩, ⟨⟨3⟩, .input 1, .result ⟨1⟩ 1⟩] := by decide
  rw [listed] at split
  refine ⟨stored, ⟨_, found⟩, h, ?_⟩
  -- the first record has a counterpart and the second has none
  match handed, split with
  | [], split =>
    obtain rfl : _ = kept := split
    exact absurd (above _ rfl) (by decide)
  | [_], split =>
    obtain ⟨rfl, rfl⟩ := List.cons.inj split
    exact ⟨done, sym, reads _ (List.mem_cons_self ..), uses⟩
  | _ :: _ :: _, split =>
    obtain ⟨rfl, rfl, -⟩ : _ ∧ _ ∧ _ := by simpa using split
    exact absurd (below _ (List.mem_cons_of_mem _ (List.mem_cons_self ..))) (by decide)

end Workspace

end Dataflow
