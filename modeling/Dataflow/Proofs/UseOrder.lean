import Dataflow.Proofs.Redirection

/-!
# Use lists in order

What an edit of operands does to the use lists, record by record. Connecting a slot takes its record
out of the list of the node that it read, and appends the new one to the list of the node that it
reads from then on; all other records keep their places (`Symmetric.allUses_connect`). Hence
connecting the slots of many records takes all of these out and appends the new ones in the order of
the old (`Symmetric.allUses_connectAll`). Slots that are not connected keep their values and tokens.
The edits that redirect records of one node all have this effect (`Redirected`).
-/

namespace Dataflow

/-- The slot that a record is about. -/
def Use.place (u : Use) : NodeId × Slot := (u.user, u.slot)

theorem UseList.recordsOf_none (l : UseList) : l.recordsOf none = l.toList :=
  List.filter_eq_self.2 fun _ _ => rfl

/-- Records of distinct slots can be told apart by their slots. -/
theorem filter_place_notMem {l us : List Use} (nodup : (l.map Use.place).Nodup) (sub : us ⊆ l) :
    l.filter (fun w => w.place ∉ us.map Use.place) = l.filter (· ∉ us) := by
  refine List.filter_congr fun w hw => ?_
  rw [decide_eq_decide, not_iff_not]
  refine ⟨fun here => ?_, List.mem_map_of_mem⟩
  obtain ⟨u, hu, same⟩ := List.mem_map.1 here
  obtain rfl := List.inj_on_of_nodup_map nodup (sub hu) hw same
  exact hu

namespace Graph

theorem allUses_of_stored {g : Graph} {p : NodeId} {node : Node} (stored : g.node? p = some node) :
    g.allUses p = node.uses.toList := by
  rw [allUses, stored]

theorem allUses_of_absent {g : Graph} {p : NodeId} (absent : g.node? p = none) :
    g.allUses p = [] := by
  rw [allUses, absent]

/-- The records of the uses of all results of a node, with their tokens. -/
def entriesOf (g : Graph) (p : NodeId) : List (Token × Use) :=
  match g.node? p with
  | some node => node.uses.entries
  | none => []

theorem allUses_eq (g : Graph) (p : NodeId) : g.allUses p = (g.entriesOf p).map (·.2) := by
  unfold allUses entriesOf
  cases g.node? p <;> rfl

theorem entriesOf_of_stored {g : Graph} {p : NodeId} {node : Node} (stored : g.node? p = some node) :
    g.entriesOf p = node.uses.entries := by
  rw [entriesOf, stored]

theorem mem_entriesOf {g : Graph} {p : NodeId} {t : Token} {u : Use} :
    (t, u) ∈ g.entriesOf p ↔ g.record? p t = some u := by
  rw [record?_eq_some_iff_mem, entriesOf]
  cases g.node? p <;> simp

theorem mem_allUses {g : Graph} {p : NodeId} {u : Use} :
    u ∈ g.allUses p ↔ ∃ t, g.record? p t = some u := by
  cases stored : g.node? p with
  | none => simp [allUses, record?, stored]
  | some node =>
    simp only [allUses, record?, stored, Option.bind_some, UseList.toList_eq, List.mem_map,
      Prod.exists, exists_eq_right, UseList.get?_eq_some_iff]

/-- The records of a node are those of the slots that read it. -/
theorem Symmetric.mem_allUses {g : Graph} (sym : g.Symmetric) {p : NodeId} {u : Use} :
    u ∈ g.allUses p ↔ g.reads? u.user u.slot = some u.value ∧ u.value.node? = some p := by
  rw [Graph.mem_allUses]
  constructor
  · rintro ⟨t, recorded⟩
    have hp := (sym.record recorded).1
    exact ⟨(sym.reads?_eq_some_iff hp).2 ⟨t, recorded⟩, hp⟩
  · rintro ⟨read, hp⟩
    exact (sym.reads?_eq_some_iff hp).1 read

/-- A node without records is not read. -/
theorem Symmetric.unread_of_allUses_eq_nil {g : Graph} (sym : g.Symmetric) {p : NodeId}
    (unused : g.allUses p = []) (x : NodeId) (s : Slot) (v : Value)
    (read : g.reads? x s = some v) : v.node? ≠ some p := by
  intro hp
  have listed : ⟨x, s, v⟩ ∈ g.allUses p := sym.mem_allUses.2 ⟨read, hp⟩
  rw [unused] at listed
  cases listed

theorem Symmetric.mem_map_place {g : Graph} (sym : g.Symmetric) {p x : NodeId} {s : Slot} :
    (x, s) ∈ (g.allUses p).map Use.place ↔ ∃ v, g.reads? x s = some v ∧ v.node? = some p := by
  constructor
  · intro listed
    obtain ⟨u, hu, here⟩ := List.mem_map.1 listed
    obtain ⟨rfl, rfl⟩ := Prod.mk.inj here
    exact ⟨u.value, sym.mem_allUses.1 hu⟩
  · rintro ⟨v, read⟩
    exact List.mem_map.2 ⟨⟨x, s, v⟩, sym.mem_allUses.2 read, rfl⟩

/-- A slot has at most one record. -/
theorem Symmetric.use_unique {g : Graph} (sym : g.Symmetric) {p q : NodeId} {u w : Use}
    (hu : u ∈ g.allUses p) (hw : w ∈ g.allUses q) (same : u.place = w.place) : p = q ∧ u = w := by
  obtain ⟨t, ht⟩ := Graph.mem_allUses.1 hu
  obtain ⟨t', ht'⟩ := Graph.mem_allUses.1 hw
  obtain ⟨user, slot⟩ := Prod.mk.inj same
  obtain ⟨hpq, -, huw⟩ := sym.token_unique ht ht' user slot
  exact ⟨hpq, huw⟩

theorem Symmetric.nodup_allUses {g : Graph} (sym : g.Symmetric) (p : NodeId) :
    ((g.allUses p).map Use.place).Nodup := by
  cases stored : g.node? p with
  | none => simp [allUses_of_absent stored]
  | some node =>
    have records := sym.nodup_records stored none
    rw [UseList.recordsOf_none] at records
    rw [allUses_of_stored stored]
    exact records

/-! ## Connecting a slot -/

/-- Forgetting the record of a slot takes its entry out of the list that it stands in. -/
theorem Symmetric.entriesOf_forgetUse {g : Graph} (sym : g.Symmetric) {user : NodeId} {s : Slot}
    {o : Operand} (held : g.operand? user s = some o) (p : NodeId) :
    (g.forgetUse o).entriesOf p = (g.entriesOf p).filter (·.2.place ≠ (user, s)) := by
  have kept : (g.forgetUse o).entriesOf p =
      (g.entriesOf p).filter fun e => ¬ (o.value.node? = some p ∧ o.token? = some e.1) := by
    rw [entriesOf, node?_forgetUse, entriesOf]
    cases g.node? p with
    | none => simp
    | some node =>
      cases o.token? with
      | none => simp
      | some t => by_cases hp : o.value.node? = some p <;> simp [hp, UseList.entries_remove, eq_comm]
  rw [kept]
  -- the record that is forgotten is the one with the token in the slot
  refine List.filter_congr fun ⟨t, u⟩ he => ?_
  have recorded := Graph.mem_entriesOf.1 he
  obtain ⟨hp, held'⟩ := sym.record recorded
  rw [decide_eq_decide, not_iff_not]
  constructor
  · rintro ⟨hq, ht⟩
    rcases sym.slot held with rfl | ⟨q, t', hq', ht', recorded'⟩
    · cases ht
    · obtain rfl := Option.some.inj (hq.symm.trans hq')
      obtain rfl := Option.some.inj (ht.symm.trans ht')
      obtain rfl := Option.some.inj (recorded.symm.trans recorded')
      rfl
  · intro here
    obtain ⟨rfl, rfl⟩ := Prod.mk.inj here
    obtain rfl := Option.some.inj (held'.symm.trans held)
    exact ⟨hp, rfl⟩

theorem Symmetric.allUses_forgetUse {g : Graph} (sym : g.Symmetric) {user : NodeId} {s : Slot}
    {o : Operand} (held : g.operand? user s = some o) (p : NodeId) :
    (g.forgetUse o).allUses p = (g.allUses p).filter (·.place ≠ (user, s)) := by
  rw [allUses_eq, sym.entriesOf_forgetUse held, allUses_eq, List.filter_map]
  rfl

/-- Linking a slot appends the entry of its record to the list of the node that it reads. -/
theorem entriesOf_link (g : Graph) (user : NodeId) (s : Slot) (v : Value) (p : NodeId) :
    (g.link user s v).entriesOf p = g.entriesOf p ++
      if v.node? = some p then (g.nextToken? v).toList.map (·, ⟨user, s, v⟩) else [] := by
  rw [link, entriesOf, entriesOf, node?_modifyNode, node?_recordUse]
  cases stored : g.node? p with
  | none =>
    by_cases hp : v.node? = some p <;> simp [nextToken?, hp, stored]
  | some node =>
    by_cases hp : v.node? = some p <;> by_cases hu : user = p <;>
      simp [nextToken?, hp, hu, stored, UseList.entries_add]

/-- A value of a stored node has a token for its next use. -/
theorem Readable.exists_nextToken? {g : Graph} {v : Value} (readable : g.Readable v) {p : NodeId}
    (hp : v.node? = some p) : ∃ t, g.nextToken? v = some t := by
  obtain ⟨node, stored⟩ := contains_iff.1 (readable p hp)
  exact ⟨_, nextToken?_eq_some_iff.2 ⟨p, node, hp, stored, rfl⟩⟩

theorem allUses_link {g : Graph} (user : NodeId) (s : Slot) {v : Value} (readable : g.Readable v)
    (p : NodeId) :
    (g.link user s v).allUses p =
      g.allUses p ++ if v.node? = some p then [⟨user, s, v⟩] else [] := by
  rw [allUses_eq, entriesOf_link, allUses_eq, List.map_append]
  congr 1
  split_ifs with hp
  · obtain ⟨t, next⟩ := readable.exists_nextToken? hp
    rw [next]
    rfl
  · rfl

/-- A slot that is let read another value loses its record, and gains one at the end of the list of
the node that it reads. -/
theorem Symmetric.allUses_connect {g : Graph} (sym : g.Symmetric) {user : NodeId} {s : Slot}
    {old v : Value} (read : g.reads? user s = some old) (ne : old ≠ v) (readable : g.Readable v)
    (p : NodeId) :
    (g.connect user s v).allUses p =
      (g.allUses p).filter (·.place ≠ (user, s)) ++
        if v.node? = some p then [⟨user, s, v⟩] else [] := by
  obtain ⟨o, held, rfl⟩ := Option.map_eq_some_iff.1 read
  have forgotten := (rewired_forgetUse g o).readable readable
  rw [connect_eq held, if_neg ne, allUses_link user s forgotten, sym.allUses_forgetUse held]

/-- A slot that is disconnected loses its record, if it has one. -/
theorem Symmetric.allUses_connect_null {g : Graph} (sym : g.Symmetric) (user : NodeId) (s : Slot)
    (p : NodeId) :
    (g.connect user s .null).allUses p = (g.allUses p).filter (·.place ≠ (user, s)) := by
  by_cases connected : ∃ v, g.reads? user s = some v ∧ v ≠ .null
  · obtain ⟨v, read, ne⟩ := connected
    rw [sym.allUses_connect read ne (readable_null g), if_neg (by simp [Value.node?]),
      List.append_nil]
  · have unchanged : g.connect user s .null = g := by
      cases held : g.operand? user s with
      | none => exact connect_of_none held _
      | some o =>
        have null : o.value = .null := by
          by_contra ne
          exact connected ⟨o.value, by rw [reads?, held, Option.map_some], ne⟩
        rw [connect_eq held, if_pos null]
    rw [unchanged, eq_comm, List.filter_eq_self]
    intro u hu
    obtain ⟨read, hp⟩ := sym.mem_allUses.1 hu
    rw [decide_eq_true_eq]
    intro here
    obtain ⟨rfl, rfl⟩ := Prod.mk.inj here
    exact connected ⟨u.value, read, Value.ne_null_of_node? hp⟩

theorem operand?_connect_of_ne (g : Graph) {user x : NodeId} {s s' : Slot}
    (ne : ¬ (user = x ∧ s = s')) (v : Value) :
    (g.connect user s v).operand? x s' = g.operand? x s' := by
  cases held : g.operand? user s with
  | none => rw [connect_of_none held]
  | some o =>
    rw [connect_eq held]
    split_ifs
    · rfl
    · rw [operand?_link, if_neg ne, operand?_forgetUse]

/-! ## Connecting many slots -/

theorem operand?_clearSlots_of_ne (g : Graph) {n x : NodeId} (ne : n ≠ x) (slots : List Slot)
    (s : Slot) : (g.clearSlots n slots).operand? x s = g.operand? x s := by
  unfold clearSlots
  induction slots generalizing g with
  | nil => rfl
  | cons s' slots ih => rw [List.foldl_cons, ih, operand?_connect_of_ne g fun same => ne same.1]

/-- Disconnecting slots takes their records out. -/
theorem Symmetric.allUses_clearSlots {g : Graph} (sym : g.Symmetric) (n : NodeId)
    (slots : List Slot) (p : NodeId) :
    (g.clearSlots n slots).allUses p =
      (g.allUses p).filter fun u => ¬ (u.user = n ∧ u.slot ∈ slots) := by
  unfold Graph.clearSlots
  induction slots generalizing g with
  | nil => simp
  | cons s slots ih =>
    rw [List.foldl_cons, ih (sym.connect n s (readable_null g)), sym.allUses_connect_null,
      List.filter_filter]
    refine List.filter_congr fun u _ => ?_
    by_cases hn : u.user = n <;> by_cases hs : u.slot = s <;> simp [Use.place, hn, hs]

theorem operand?_connectAll_of_notMem {g : Graph} {f : Use → Value} {us : List Use} {x : NodeId}
    {s : Slot} (other : (x, s) ∉ us.map Use.place) :
    (g.connectAll f us).operand? x s = g.operand? x s := by
  unfold connectAll
  induction us generalizing g with
  | nil => rfl
  | cons u us ih =>
    rw [List.map_cons, List.mem_cons, not_or] at other
    rw [List.foldl_cons, ih other.2, operand?_connect_of_ne]
    rintro ⟨rfl, rfl⟩
    exact other.1 rfl

/-- The slots of records are connected one after the other: their records are taken out, and the new
ones are appended in the order of the old. -/
theorem Symmetric.allUses_connectAll {g : Graph} (sym : g.Symmetric) {f : Use → Value}
    {us : List Use} (nodup : (us.map Use.place).Nodup)
    (moved : ∀ u ∈ us, g.reads? u.user u.slot = some u.value ∧ u.value ≠ f u)
    (readable : ∀ u ∈ us, g.Readable (f u)) (p : NodeId) :
    (g.connectAll f us).allUses p =
      (g.allUses p).filter (fun w => w.place ∉ us.map Use.place) ++
        (us.filter fun u => (f u).node? = some p).map fun u => { u with value := f u } := by
  unfold Graph.connectAll
  induction us generalizing g with
  | nil => simp
  | cons u us ih =>
    rw [List.map_cons, List.nodup_cons] at nodup
    rw [List.forall_mem_cons] at moved readable
    obtain ⟨⟨read, ne⟩, moved⟩ := moved
    -- the slots of the other records are not touched by the first step
    have moved' : ∀ w ∈ us, (g.connect u.user u.slot (f u)).reads? w.user w.slot = some w.value ∧
        w.value ≠ f w := by
      intro w hw
      refine ⟨?_, (moved w hw).2⟩
      rw [reads?_connect, if_neg]
      · exact (moved w hw).1
      · rintro ⟨user, slot⟩
        exact nodup.1 (List.mem_map.2 ⟨w, hw, Prod.ext user.symm slot.symm⟩)
    have rest := ih (sym.connect u.user u.slot readable.1) nodup.2 moved' fun w hw =>
      (rewired_connect g u.user u.slot (f u)).readable (readable.2 w hw)
    have first : (if (f u).node? = some p then [(⟨u.user, u.slot, f u⟩ : Use)] else []).filter
        (fun w => w.place ∉ us.map Use.place) =
          if (f u).node? = some p then [⟨u.user, u.slot, f u⟩] else [] := by
      rw [List.filter_eq_self]
      intro w hw
      split_ifs at hw with hp
      · obtain rfl := List.mem_singleton.1 hw
        exact decide_eq_true nodup.1
      · cases hw
    rw [List.foldl_cons, rest, sym.allUses_connect read ne readable.1, List.filter_append, first,
      List.filter_filter, List.append_assoc]
    congr 1
    · refine List.filter_congr fun w _ => ?_
      by_cases here : w.place = u.place <;> simp_all [Use.place]
    · by_cases hp : (f u).node? = some p <;> simp [hp]

/-- The records of one node are not those of another. -/
theorem Symmetric.filter_place_of_ne {g : Graph} (sym : g.Symmetric) {p q : NodeId}
    {us : List Use} (listed : us ⊆ g.allUses q) (ne : p ≠ q) :
    (g.allUses p).filter (fun w => w.place ∉ us.map Use.place) = g.allUses p := by
  rw [List.filter_eq_self]
  intro w hw
  rw [decide_eq_true_eq]
  intro here
  obtain ⟨u, hu, same⟩ := List.mem_map.1 here
  exact ne (sym.use_unique (listed hu) hw same).1.symm

/-! ## Redirected records -/

/-- The slots of the records `us` of the node `p` read the values chosen by `f`; their records have
moved, and all other slots and records are where they were. -/
structure Redirected (g : Graph) (p : NodeId) (us : List Use) (f : Use → Value) (h : Graph) :
    Prop where
  rewired : g.Rewired h
  symmetric : h.Symmetric
  reads : ∀ u ∈ us, h.reads? u.user u.slot = some (f u)
  operand : ∀ x s, (x, s) ∉ us.map Use.place → h.operand? x s = g.operand? x s
  uses : ∀ q, h.allUses q =
    (if q = p then (g.allUses q).filter (· ∉ us) else g.allUses q) ++
      (us.filter fun u => (f u).node? = some q).map fun u => { u with value := f u }

theorem Symmetric.nodup_place {g : Graph} (sym : g.Symmetric) {p : NodeId} {us : List Use}
    (listed : us.Sublist (g.allUses p)) : (us.map Use.place).Nodup :=
  (sym.nodup_allUses p).sublist (listed.map _)

/-- Connecting the slots of records of a node elsewhere redirects them. -/
theorem Symmetric.redirected_connectAll {g : Graph} (sym : g.Symmetric) {p : NodeId}
    {us : List Use} (listed : us.Sublist (g.allUses p)) {f : Use → Value}
    (ne : ∀ u ∈ us, u.value ≠ f u) (readable : ∀ u ∈ us, g.Readable (f u)) :
    g.Redirected p us f (g.connectAll f us) := by
  have nodup := sym.nodup_place listed
  have read {u : Use} (hu : u ∈ us) : g.reads? u.user u.slot = some u.value :=
    (sym.mem_allUses.1 (listed.subset hu)).1
  refine ⟨rewired_connectAll g f us, sym.connectAll readable, fun u hu => ?_,
    fun x s other => operand?_connectAll_of_notMem other, fun q => ?_⟩
  · rw [reads?_connectAll_of_mem nodup hu, read hu, Option.map_some]
  · rw [sym.allUses_connectAll nodup (fun u hu => ⟨read hu, ne u hu⟩) readable]
    split_ifs with hq
    · rw [hq, filter_place_notMem (sym.nodup_allUses p) listed.subset]
    · rw [sym.filter_place_of_ne listed.subset hq]

section Redirected

variable {g h : Graph} {p q : NodeId} {us kept : List Use} {f : Use → Value}

/-- The list of the node loses the records that lead elsewhere. -/
theorem Redirected.allUses_source (r : g.Redirected p us f h) (sym : g.Symmetric)
    (split : g.allUses p = us ++ kept) (leave : ∀ u ∈ us, (f u).node? ≠ some p) :
    h.allUses p = kept := by
  have nodup : (us ++ kept).Nodup := split ▸ (sym.nodup_allUses p).of_map _
  have gone : us.filter (· ∉ us) = [] :=
    List.filter_eq_nil_iff.2 fun u hu fresh => of_decide_eq_true fresh hu
  have left : kept.filter (· ∉ us) = kept :=
    List.filter_eq_self.2 fun u hu => decide_eq_true fun hu' =>
      (List.nodup_append.1 nodup).2.2 u hu' u hu rfl
  have joined : (us.filter fun u => (f u).node? = some p) = [] :=
    List.filter_eq_nil_iff.2 fun u hu back => leave u hu (of_decide_eq_true back)
  rw [r.uses, if_pos rfl, split, List.filter_append, gone, left, joined]
  simp

/-- Records that all lead to one other node join its list. -/
theorem Redirected.allUses_target (r : g.Redirected p us f h) (ne : q ≠ p)
    (lead : ∀ u ∈ us, (f u).node? = some q) :
    h.allUses q = g.allUses q ++ us.map fun u => { u with value := f u } := by
  rw [r.uses, if_neg ne, List.filter_eq_self.2 fun u hu => decide_eq_true (lead u hu)]

theorem Redirected.allUses_other (r : g.Redirected p us f h) (ne : q ≠ p)
    (apart : ∀ u ∈ us, (f u).node? ≠ some q) : h.allUses q = g.allUses q := by
  have joined : (us.filter fun u => (f u).node? = some q) = [] :=
    List.filter_eq_nil_iff.2 fun u hu here => apart u hu (of_decide_eq_true here)
  rw [r.uses, if_neg ne, joined, List.map_nil, List.append_nil]

/-- When all records of the node are redirected, every slot that reads the node reads the value
chosen for what it read. -/
theorem Redirected.reads?_of_all {f : Value → Value}
    (r : g.Redirected p (g.allUses p) (fun u => f u.value) h) (sym : g.Symmetric) (x : NodeId)
    (s : Slot) :
    h.reads? x s = (g.reads? x s).map fun v => if v.node? = some p then f v else v := by
  by_cases listed : (x, s) ∈ (g.allUses p).map Use.place
  · obtain ⟨u, hu, here⟩ := List.mem_map.1 listed
    obtain ⟨rfl, rfl⟩ := Prod.mk.inj here
    obtain ⟨read, hp⟩ := sym.mem_allUses.1 hu
    rw [r.reads u hu, read, Option.map_some, if_pos hp]
  · have same : h.reads? x s = g.reads? x s := by rw [reads?, r.operand x s listed, reads?]
    rw [same]
    cases read : g.reads? x s with
    | none => rfl
    | some v =>
      rw [Option.map_some, if_neg]
      exact fun hp => listed (sym.mem_map_place.2 ⟨v, read, hp⟩)

end Redirected

end Graph

end Dataflow
