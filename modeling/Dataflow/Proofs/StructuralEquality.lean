import Dataflow.Duplicates
import Dataflow.Node.Layout
import Dataflow.Proofs.AnyHistory
import Mathlib.Data.List.Induction

/-!
# Structural equality

What the slots of a node read is a matter of its structural key (`Graph.reads?_of_key`). Equality and
hashing go over the row in which the types of a node are laid out. As its places that are not in use are
empty, two rows are the same exactly when their types are (`TypeRow.toList_injective`), and adding and
assigning types is the same on rows and on lists. So for nodes that keep to the limit, two of them are
equal exactly when their structural keys are (`Node.Limited.isEqual_iff_key`), and exactly when the same
is fed to a hasher (`Node.feed_eq_iff`). A table of the latest node of every key then finds for each
node the last one before it that is equal to it (`mem_duplicatesIn`).
-/

namespace Dataflow

/-! ## Keys -/

namespace Node

theorem key_eq_iff {a b : Node} : a.key = b.key ↔ a.op = b.op ∧ a.results = b.results ∧
    a.predicate.value = b.predicate.value ∧ a.inputValues = b.inputValues := by
  rw [key, key, Key.mk.injEq]

/-- What a slot of a node with this key reads. -/
def Key.read? (k : Key) : Slot → Option Value
  | .predicate => some k.predicate
  | .input i => k.inputs[i]?

theorem read?_key (n : Node) (s : Slot) : n.key.read? s = (n.operand? s).map (·.value) := by
  cases s with
  | predicate => rfl
  | input i => exact List.getElem?_map

theorem key_clone (n : Node) (id : NodeId) : (n.clone id).key = n.key := by
  simp [clone, key, inputValues, Operand.unlinked, Function.comp_def]

end Node

namespace Graph

theorem reads?_eq_bind_key (g : Graph) (x : NodeId) (s : Slot) :
    g.reads? x s = ((g.node? x).map Node.key).bind (·.read? s) := by
  rw [reads?, operand?]
  cases g.node? x with
  | none => rfl
  | some node => exact (node.read?_key s).symm

/-- Nodes with the same key read the same values through the same slots. -/
theorem reads?_of_key {g : Graph} {x y : NodeId} {a b : Node} (sx : g.node? x = some a)
    (sy : g.node? y = some b) (same : a.key = b.key) (s : Slot) : g.reads? x s = g.reads? y s := by
  rw [reads?_eq_bind_key, reads?_eq_bind_key, sx, sy, Option.map_some, Option.map_some, same]

end Graph

/-! ## Rows -/

namespace TypeRow

variable {r r' : TypeRow} {t? : Option TensorType} {i : Nat} {t : TensorType}

theorem length_toList (r : TypeRow) : r.toList.length = r.count := by
  simp [toList, r.count_le]

theorem getElem?_toList (r : TypeRow) (inside : i < maxResults) :
    r.toList[i]? = if i < r.count then some r.types[i] else none := by
  rw [toList, List.getElem?_take]
  simp [inside]

/-- A row is determined by the types of its places in use: the others are empty. -/
theorem toList_injective (same : r.toList = r'.toList) : r = r' := by
  have count : r.count = r'.count := by rw [← r.length_toList, same, r'.length_toList]
  have types : r.types = r'.types := by
    ext1 i inside
    by_cases used : i < r.count
    · have here := r.getElem?_toList inside
      rw [same, r'.getElem?_toList inside, if_pos used, if_pos (count ▸ used)] at here
      exact (Option.some.inj here).symm
    · rw [r.vacant i (Nat.not_lt.1 used) inside, r'.vacant i (count ▸ Nat.not_lt.1 used) inside]
  cases r
  cases r'
  simp_all

theorem toList_add? (r : TypeRow) (t? : Option TensorType) :
    (r.add? t?).map toList = if r.count < maxResults then some (r.toList ++ [t?]) else none := by
  unfold add?
  split_ifs with room
  · rw [Option.map_some, Option.some.injEq]
    cases t? with
    | none =>
      -- the place that is taken into use has been empty
      have empty := r.vacant r.count (Nat.le_refl _) room
      simp [toList, List.take_add_one, room, empty]
    | some t => simp [toList, Vector.toList_set, List.take_add_one, List.take_set_of_le, room]
  · rfl

theorem toList_setType? (r : TypeRow) (i : Nat) (t : TensorType) :
    (r.setType? i t).map toList =
      if i < r.count then some (r.toList.set i (some t)) else none := by
  unfold setType?
  split_ifs with used
  · rw [Option.map_some, toList, toList, Vector.toList_set, List.take_set]
  · rfl

theorem toList_ofList {ts : List (Option TensorType)} (fits : ts.length ≤ maxResults) :
    (ofList ts).toList = ts := by
  induction ts using List.reverseRecOn with
  | nil => rfl
  | append_singleton ts t? ih =>
    rw [List.length_append, List.length_singleton] at fits
    have before := ih (Nat.le_of_succ_le fits)
    have room : (ofList ts).count < maxResults := by
      rw [← length_toList, before]
      exact fits
    have added := (ofList ts).toList_add? t?
    rw [if_pos room, before, Option.map_eq_some_iff] at added
    obtain ⟨r, added, row⟩ := added
    rw [ofList, List.foldl_append, List.foldl_cons, List.foldl_nil, ← ofList, added, Option.getD_some,
      row]

end TypeRow

/-! ## Nodes -/

namespace Node

variable {a b n m : Node}

theorem Limited.toList_typeRow (limited : n.Limited) : n.typeRow.toList = n.results :=
  TypeRow.toList_ofList limited

theorem Limited.count_typeRow (limited : n.Limited) : n.typeRow.count = n.results.length := by
  rw [← n.typeRow.length_toList, limited.toList_typeRow]

/-- Adding a result does to the row what it does to the list of types. -/
theorem Limited.typeRow_addResult (limited : n.Limited) (t? : Option TensorType) :
    (n.addResult t?).toOption.map typeRow = n.typeRow.add? t? := by
  have row := n.typeRow.toList_add? t?
  rw [limited.toList_typeRow, limited.count_typeRow] at row
  unfold addResult
  split_ifs with room
  · rw [if_pos room, Option.map_eq_some_iff] at row
    obtain ⟨r, added, types⟩ := row
    have fits : (n.results ++ [t?]).length ≤ maxResults := by
      rw [List.length_append]
      exact room
    have same : typeRow { n with results := n.results ++ [t?] } = r :=
      TypeRow.toList_injective ((TypeRow.toList_ofList fits).trans types.symm)
    rw [added, ← same]
    rfl
  · rw [if_neg room, Option.map_eq_none_iff] at row
    rw [row]
    rfl

/-- Assigning a type does to the row what it does to the list of types. -/
theorem Limited.typeRow_setType (limited : n.Limited) (i : Nat) (t : TensorType) :
    (n.setType i t).toOption.map typeRow = n.typeRow.setType? i t := by
  have row := n.typeRow.toList_setType? i t
  rw [limited.toList_typeRow, limited.count_typeRow] at row
  unfold setType
  split_ifs with used
  · rw [if_pos used, Option.map_eq_some_iff] at row
    obtain ⟨r, written, types⟩ := row
    have fits : (n.results.set i (some t)).length ≤ maxResults := by
      rw [List.length_set]
      exact limited
    have same : typeRow { n with results := n.results.set i (some t) } = r :=
      TypeRow.toList_injective ((TypeRow.toList_ofList fits).trans types.symm)
    rw [written, ← same]
    rfl
  · rw [if_neg used, Option.map_eq_none_iff] at row
    rw [row]
    rfl

/-! ## Equality -/

theorem isEqual_iff : a.isEqual b = true ↔ a.op = b.op ∧ a.typeRow = b.typeRow ∧
    a.predicate.value = b.predicate.value ∧ a.inputValues = b.inputValues := by
  have rows : a.typeRow = b.typeRow ↔
      a.typeRow.count = b.typeRow.count ∧ a.typeRow.types = b.typeRow.types := by
    rw [TypeRow.mk.injEq, and_comm]
  have lengths (same : a.inputValues = b.inputValues) : a.inputs.length = b.inputs.length := by
    simpa [inputValues] using congrArg List.length same
  simp only [isEqual, Bool.and_eq_true, beq_iff_eq, rows]
  constructor
  · rintro ⟨⟨⟨⟨⟨op, count⟩, types⟩, predicate⟩, -⟩, inputs⟩
    exact ⟨op, ⟨count, types⟩, predicate, inputs⟩
  · rintro ⟨op, ⟨count, types⟩, predicate, inputs⟩
    exact ⟨⟨⟨⟨⟨op, count⟩, types⟩, predicate⟩, lengths inputs⟩, inputs⟩

theorem equivalence_isEqual : Equivalence fun a b : Node => a.isEqual b = true where
  refl a := isEqual_iff.2 ⟨rfl, rfl, rfl, rfl⟩
  symm same := by
    obtain ⟨op, row, predicate, inputs⟩ := isEqual_iff.1 same
    exact isEqual_iff.2 ⟨op.symm, row.symm, predicate.symm, inputs.symm⟩
  trans first rest := by
    obtain ⟨op, row, predicate, inputs⟩ := isEqual_iff.1 first
    obtain ⟨op', row', predicate', inputs'⟩ := isEqual_iff.1 rest
    exact isEqual_iff.2
      ⟨op.trans op', row.trans row', predicate.trans predicate', inputs.trans inputs'⟩

/-- Equality depends on nothing but the keys. -/
theorem isEqual_congr {a' b' : Node} (same : a'.key = a.key) (same' : b'.key = b.key) :
    a'.isEqual b' = a.isEqual b := by
  obtain ⟨op, results, predicate, inputs⟩ := key_eq_iff.1 same
  obtain ⟨op', results', predicate', inputs'⟩ := key_eq_iff.1 same'
  rw [Bool.eq_iff_iff, isEqual_iff, isEqual_iff, typeRow, typeRow, op, results, predicate, inputs, op',
    results', predicate', inputs', typeRow, typeRow]

theorem isEqual_of_key (same : a.key = b.key) : a.isEqual b = true :=
  (isEqual_congr same rfl).trans (equivalence_isEqual.refl b)

/-- Nodes with the same key are equal, and the converse holds for nodes that keep to the limit. -/
theorem Limited.isEqual_iff_key (limited : a.Limited) (limited' : b.Limited) :
    a.isEqual b = true ↔ a.key = b.key := by
  have rows : a.typeRow = b.typeRow ↔ a.results = b.results := by
    refine ⟨fun same => ?_, fun same => congrArg TypeRow.ofList same⟩
    rw [← limited.toList_typeRow, same, limited'.toList_typeRow]
  rw [isEqual_iff, rows, key_eq_iff]

theorem Limited.isEqual_iff_types (limited : a.Limited) (limited' : b.Limited) :
    a.isEqual b = true ↔ a.op = b.op ∧
      (a.results.length = b.results.length ∧
        ∀ i, i < a.results.length → a.results[i]? = b.results[i]?) ∧
      a.predicate.value = b.predicate.value ∧ a.inputValues = b.inputValues := by
  rw [limited.isEqual_iff_key limited', key_eq_iff]
  refine and_congr_right fun _ => and_congr_left fun _ => ⟨fun same => by simp [same], ?_⟩
  rintro ⟨count, types⟩
  refine List.ext_getElem? fun i => ?_
  by_cases inside : i < a.results.length
  · exact types i inside
  · rw [List.getElem?_eq_none (Nat.not_lt.1 inside),
      List.getElem?_eq_none (count ▸ Nat.not_lt.1 inside)]

/-! ## Hashing -/

/-- What is fed to a hasher leaves out nothing that equality looks at, and nothing else goes in. -/
theorem feed_eq_iff : a.feed = b.feed ↔ a.isEqual b = true := by
  rw [isEqual_iff]
  constructor
  · intro same
    simp only [feed, List.cons_append, List.nil_append, List.append_assoc, List.cons.injEq,
      HashItem.op.injEq, HashItem.size.injEq, true_and] at same
    obtain ⟨op, count, same⟩ := same
    have places : (a.typeRow.types.toList.map HashItem.type).length =
        (b.typeRow.types.toList.map HashItem.type).length := by simp
    obtain ⟨types, same⟩ := List.append_inj same places
    rw [List.cons.injEq, List.cons.injEq, HashItem.value.injEq] at same
    obtain ⟨predicate, -, inputs⟩ := same
    have type_inj : Function.Injective HashItem.type := fun _ _ => HashItem.type.inj
    have value_inj : Function.Injective HashItem.value := fun _ _ => HashItem.value.inj
    have types := Vector.toList_inj.1 (List.map_injective_iff.2 type_inj types)
    exact ⟨op, by rw [TypeRow.mk.injEq]; exact ⟨types, count⟩, predicate,
      List.map_injective_iff.2 value_inj inputs⟩
  · rintro ⟨op, row, predicate, inputs⟩
    have lengths : a.inputs.length = b.inputs.length := by
      simpa [inputValues] using congrArg List.length inputs
    rw [feed, feed, op, row, predicate, inputs, lengths]

theorem structuralHash_eq {σ : Type} (h : Hasher σ) (same : a.isEqual b = true) :
    a.structuralHash h = b.structuralHash h := by
  rw [structuralHash, structuralHash, feed_eq_iff.2 same]

end Node

/-! ## Duplicates -/

/-- All nodes that a function lists are stored. -/
theorem Graph.Owned.exists_nodesOf {g : Graph} (own : g.Owned) {func : Func} (hf : func ∈ g.funcs) :
    ∃ nodes, g.nodesOf func.id = .ok nodes ∧ nodes.map (·.id) = func.nodes := by
  have found := own.funcOrRefusal_eq_ok_iff.2 ⟨hf, rfl⟩
  refine ⟨func.nodes.filterMap g.node?, by rw [Graph.nodesOf, found]; rfl, ?_⟩
  rw [List.map_filterMap, List.filterMap_congr (g := some), List.filterMap_some]
  intro n hn
  obtain ⟨node, stored, -⟩ := own.listed ⟨func, hf, rfl, hn⟩
  rw [stored, Option.map_some, own.node_id stored]

/-- In the list `l` the node `a` is the last one before `b` that has the key of `b`. -/
def LastBefore (l : List Node) (a b : Node) : Prop :=
  ∃ front mid back, l = front ++ a :: (mid ++ b :: back) ∧ a.key = b.key ∧ ∀ m ∈ mid, m.key ≠ b.key

/-- The last node with the key `k` is found from the end of a list. -/
theorem find?_reverse_eq_some_iff {l : List Node} {a : Node} {k : Node.Key} :
    l.reverse.find? (·.key == k) = some a ↔
      ∃ front mid, l = front ++ a :: mid ∧ a.key = k ∧ ∀ m ∈ mid, m.key ≠ k := by
  rw [List.find?_eq_some_iff_append, beq_iff_eq]
  constructor
  · rintro ⟨key, later, earlier, split, other⟩
    refine ⟨earlier.reverse, later.reverse, ?_, key, fun m hm => ?_⟩
    · rw [← l.reverse_reverse, split]
      simp
    · simpa using other m (List.mem_reverse.1 hm)
  · rintro ⟨front, mid, rfl, key, other⟩
    exact ⟨key, mid.reverse, front.reverse, by simp, fun m hm => by
      simpa using other m (List.mem_reverse.1 hm)⟩

/-- A node at the end comes after the last one of the others that has its key. -/
theorem lastBefore_append_singleton {l : List Node} {a b n : Node} :
    LastBefore (l ++ [n]) a b ↔
      LastBefore l a b ∨ b = n ∧ l.reverse.find? (·.key == n.key) = some a := by
  rw [find?_reverse_eq_some_iff]
  constructor
  · rintro ⟨front, mid, back, split, key, other⟩
    rcases back.eq_nil_or_concat with rfl | ⟨back, n', rfl⟩
    · rw [← List.cons_append, ← List.append_assoc] at split
      obtain ⟨rfl, last⟩ := List.append_inj' split rfl
      obtain rfl := List.singleton_inj.1 last
      exact .inr ⟨rfl, front, mid, rfl, key, other⟩
    · have split : l ++ [n] = (front ++ a :: (mid ++ b :: back)) ++ [n'] := by simpa using split
      obtain ⟨rfl, -⟩ := List.append_inj' split rfl
      exact .inl ⟨front, mid, back, rfl, key, other⟩
  · rintro (⟨front, mid, back, rfl, key, other⟩ | ⟨rfl, front, mid, rfl, key, other⟩)
    · exact ⟨front, mid, back ++ [n], by simp, key, other⟩
    · exact ⟨front, mid, [], by simp, key, other⟩

/-- A pass over a list knows the latest node of every key and the pairs found in the list. -/
theorem latest_foldl_visit (l : List Node) (k : Node.Key) :
    (l.foldl DuplicateSearch.visit {}).latest[k]? = (l.reverse.find? (·.key == k)).map (·.id) := by
  induction l using List.reverseRecOn with
  | nil => simp
  | append_singleton l n ih =>
    rw [List.foldl_append, List.foldl_cons, List.foldl_nil, DuplicateSearch.visit,
      Std.HashMap.getElem?_insert, ih, List.reverse_append]
    by_cases same : n.key = k <;> simp [same]

theorem duplicatesIn_append_singleton (l : List Node) (n : Node) :
    duplicatesIn (l ++ [n]) =
      duplicatesIn l ++ ((l.reverse.find? (·.key == n.key)).map (·.id, n.id)).toList := by
  have latest := latest_foldl_visit l n.key
  rw [duplicatesIn, List.foldl_append, List.foldl_cons, List.foldl_nil, DuplicateSearch.visit, latest,
    duplicatesIn]
  cases l.reverse.find? (·.key == n.key) <;> simp

/-- The pairs found in a list are those of each node with the last one before it that has its key. -/
theorem mem_duplicatesIn {l : List Node} {p : NodeId × NodeId} :
    p ∈ duplicatesIn l ↔ ∃ a b, LastBefore l a b ∧ p = (a.id, b.id) := by
  induction l using List.reverseRecOn with
  | nil => simp [duplicatesIn, LastBefore]
  | append_singleton l n ih =>
    rw [duplicatesIn_append_singleton, List.mem_append, ih]
    simp only [lastBefore_append_singleton, Option.mem_toList, Option.map_eq_some_iff]
    constructor
    · rintro (⟨a, b, before, rfl⟩ | ⟨a, found, rfl⟩)
      · exact ⟨a, b, .inl before, rfl⟩
      · exact ⟨a, n, .inr ⟨rfl, found⟩, rfl⟩
    · rintro ⟨a, b, before | ⟨rfl, found⟩, rfl⟩
      · exact .inl ⟨a, b, before, rfl⟩
      · exact .inr ⟨a, found, rfl⟩

/-- The same with equality in place of keys. -/
theorem mem_duplicatesIn_iff {l : List Node} (limited : ∀ n ∈ l, n.Limited) {p : NodeId × NodeId} :
    p ∈ duplicatesIn l ↔ ∃ front a mid b back, l = front ++ a :: (mid ++ b :: back) ∧
      p = (a.id, b.id) ∧ a.isEqual b = true ∧ ∀ m ∈ mid, m.isEqual b = false := by
  have equal {m b : Node} (hm : m ∈ l) (hb : b ∈ l) : m.isEqual b = true ↔ m.key = b.key :=
    (limited m hm).isEqual_iff_key (limited b hb)
  rw [mem_duplicatesIn]
  constructor
  · rintro ⟨a, b, ⟨front, mid, back, rfl, same, other⟩, rfl⟩
    refine ⟨front, a, mid, b, back, rfl, rfl, (equal (by simp) (by simp)).2 same, fun m hm => ?_⟩
    rw [Bool.eq_false_iff, ne_eq, equal (by simp [hm]) (by simp)]
    exact other m hm
  · rintro ⟨front, a, mid, b, back, rfl, rfl, same, other⟩
    refine ⟨a, b, ⟨front, mid, back, rfl, (equal (by simp) (by simp)).1 same, fun m hm => ?_⟩, rfl⟩
    rw [ne_eq, ← equal (by simp [hm]) (by simp), ← ne_eq, ← Bool.eq_false_iff]
    exact other m hm

/-- Pairs are found in the order of their later nodes, one for each at most. -/
theorem duplicatesIn_sublist (l : List Node) :
    ((duplicatesIn l).map (·.2)).Sublist (l.map (·.id)) := by
  induction l using List.reverseRecOn with
  | nil => exact List.nil_sublist _
  | append_singleton l n ih =>
    rw [duplicatesIn_append_singleton, List.map_append, List.map_append]
    refine ih.append ?_
    cases l.reverse.find? (·.key == n.key) <;> simp

end Dataflow
