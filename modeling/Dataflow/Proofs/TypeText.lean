import Dataflow.Op.Rules

/-!
# What the text of a type says

The text of a type determines the type, and also where the text ends inside a longer one
(`TensorType.text_append_inj`): the name of an element kind ends at the first angle bracket, a dimension
at the first character that is not a digit, and what comes then tells whether there are more. So a
message that sets two types against each other shows two different texts.
-/

namespace Dataflow

/-- A text is cut in only one way into characters with a property and a rest that starts without it. -/
theorem append_inj_of_span {p : Char → Bool} {a b u v : List Char} (ha : ∀ c ∈ a, p c)
    (hb : ∀ c ∈ b, p c) (hu : ∀ c ∈ u.head?, ¬ p c) (hv : ∀ c ∈ v.head?, ¬ p c)
    (same : a ++ u = b ++ v) : a = b ∧ u = v := by
  have cut {a u : List Char} (ha : ∀ c ∈ a, p c) (hu : ∀ c ∈ u.head?, ¬ p c) :
      (a ++ u).takeWhile p = a := by
    rw [List.takeWhile_append_of_pos ha]
    cases u with
    | nil => simp
    | cons c u => simp [hu c rfl]
  obtain rfl : a = b := by rw [← cut ha hu, same, cut hb hv]
  exact ⟨rfl, List.append_cancel_left same⟩

/-! ## Element kinds -/

namespace ElemKind

theorem ofText?_text (e : ElemKind) : ofText? e.text = some e := by
  cases e <;> rfl

theorem text_injective {e f : ElemKind} (same : e.text = f.text) : e = f :=
  Option.some.inj (by rw [← ofText?_text, same, ofText?_text])

theorem ne_of_mem_text {e : ElemKind} {c : Char} (hc : c ∈ e.text.toList) : c ≠ '<' := by
  rintro rfl
  revert hc
  cases e <;> decide

end ElemKind

/-! ## Dimensions -/

theorem toDigits_injective {m n : Nat} (same : Nat.toDigits 10 m = Nat.toDigits 10 n) : m = n := by
  rw [← Nat.ofDigitChars_ten_toDigits (n := m), same, Nat.ofDigitChars_ten_toDigits]

namespace TensorType

/-- The dimensions after the first, each with the separator before it, up to the closing bracket. -/
def furtherDims : List Nat → List Char
  | [] => ['>']
  | d :: dims => ' ' :: 'x' :: ' ' :: (Nat.toDigits 10 d ++ furtherDims dims)

/-- The dimensions, up to the closing bracket. -/
def dimsText : List Nat → List Char
  | [] => ['>']
  | d :: dims => Nat.toDigits 10 d ++ furtherDims dims

theorem intercalate_dims (dims : List Nat) :
    " x ".toList.intercalate (dims.map (Nat.toDigits 10)) ++ ['>'] = dimsText dims := by
  cases dims with
  | nil => rfl
  | cons d dims =>
    rw [dimsText]
    induction dims generalizing d with
    | nil => simp [furtherDims]
    | cons d' dims ih =>
      have rest := ih d'
      rw [List.map_cons] at rest
      rw [List.map_cons, List.map_cons, List.intercalate_cons_cons, List.append_assoc, rest]
      simp [furtherDims]

theorem toList_text (t : TensorType) : t.text.toList = t.elem.text.toList ++ '<' :: dimsText t.dims := by
  rw [← intercalate_dims]
  simp [text, Function.comp_def]

/-- No digit comes after a dimension. -/
theorem not_isDigit_head? {dims : List Nat} {rest : List Char} :
    ∀ c ∈ (furtherDims dims ++ rest).head?, ¬ c.isDigit := by
  cases dims with
  | nil => rintro _ ⟨⟩; decide
  | cons d dims => rintro _ ⟨⟩; decide

theorem isDigit_of_mem {n : Nat} {c : Char} (hc : c ∈ Nat.toDigits 10 n) : c.isDigit :=
  Nat.isDigit_of_mem_toDigits (by decide) (by decide) hc

/-- A dimension ends where the next character is no digit. -/
theorem cut_dim {m n : Nat} {ms ns : List Nat} {u v : List Char}
    (same : Nat.toDigits 10 m ++ furtherDims ms ++ u = Nat.toDigits 10 n ++ furtherDims ns ++ v) :
    m = n ∧ furtherDims ms ++ u = furtherDims ns ++ v := by
  rw [List.append_assoc, List.append_assoc] at same
  obtain ⟨digits, rest⟩ := append_inj_of_span (fun _ => isDigit_of_mem) (fun _ => isDigit_of_mem)
    not_isDigit_head? not_isDigit_head? same
  exact ⟨toDigits_injective digits, rest⟩

theorem furtherDims_append_inj {ms ns : List Nat} {u v : List Char}
    (same : furtherDims ms ++ u = furtherDims ns ++ v) : ms = ns ∧ u = v := by
  induction ms generalizing ns with
  | nil =>
    cases ns with
    | nil => exact ⟨rfl, (List.cons.inj same).2⟩
    | cons n ns => simp [furtherDims] at same
  | cons m ms ih =>
    cases ns with
    | nil => simp [furtherDims] at same
    | cons n ns =>
      simp only [furtherDims, List.cons_append, List.cons.injEq, true_and] at same
      obtain ⟨rfl, further⟩ := cut_dim same
      obtain ⟨rfl, after⟩ := ih further
      exact ⟨rfl, after⟩

/-- The closing bracket is not a dimension. -/
theorem dimsText_nil_append_ne {n : Nat} {ns : List Nat} {u v : List Char} :
    dimsText [] ++ u ≠ dimsText (n :: ns) ++ v := by
  intro same
  obtain ⟨c, cs, digits⟩ := List.exists_cons_of_ne_nil (Nat.toDigits_ne_nil (b := 10) (n := n))
  have digit : c.isDigit := isDigit_of_mem (n := n) (digits ▸ List.mem_cons_self ..)
  rw [dimsText, dimsText, digits] at same
  obtain rfl := (List.cons.inj same).1
  exact absurd digit (by decide)

theorem dimsText_append_inj {ms ns : List Nat} {u v : List Char}
    (same : dimsText ms ++ u = dimsText ns ++ v) : ms = ns ∧ u = v := by
  cases ms with
  | nil =>
    cases ns with
    | nil => exact ⟨rfl, (List.cons.inj same).2⟩
    | cons n ns => exact absurd same dimsText_nil_append_ne
  | cons m ms =>
    cases ns with
    | nil => exact absurd same.symm dimsText_nil_append_ne
    | cons n ns =>
      obtain ⟨rfl, further⟩ := cut_dim same
      obtain ⟨rfl, after⟩ := furtherDims_append_inj further
      exact ⟨rfl, after⟩

/-! ## Types -/

/-- A text that begins with that of a type begins with that of no other, and goes on in one way. -/
theorem text_append_inj {t u : TensorType} {a b : String} (same : t.text ++ a = u.text ++ b) :
    t = u ∧ a = b := by
  obtain ⟨e, ms⟩ := t
  obtain ⟨f, ns⟩ := u
  have chars : e.text.toList ++ '<' :: (dimsText ms ++ a.toList) =
      f.text.toList ++ '<' :: (dimsText ns ++ b.toList) := by
    simpa [toList_text] using congrArg String.toList same
  have name (e : ElemKind) : ∀ c ∈ e.text.toList, decide (c ≠ '<') :=
    fun c hc => decide_eq_true (ElemKind.ne_of_mem_text hc)
  obtain ⟨elem, bracket⟩ := append_inj_of_span (name e) (name f) (by simp) (by simp) chars
  obtain rfl : e = f := ElemKind.text_injective (String.toList_injective elem)
  obtain ⟨rfl, rest⟩ := dimsText_append_inj (List.cons.inj bracket).2
  exact ⟨rfl, String.toList_injective rest⟩

theorem text_inj {t u : TensorType} : t.text = u.text ↔ t = u :=
  ⟨fun same => (text_append_inj (a := "") (b := "") (by rw [same])).1, fun same => same ▸ rfl⟩

end TensorType

/-! ## Messages -/

namespace Breach

/-- The types that a breach sets against each other. -/
def opposed? : Breach → Option (TensorType × TensorType)
  | inputType _ found result => some (found, result)
  | operandTypes lhs rhs => some (lhs, rhs)
  | incompatible input first => some (input, first)
  | savedType input output => some (input, output)
  | _ => none

theorem exists_message_eq {b : Breach} {t u : TensorType} (opposed : b.opposed? = some (t, u)) :
    ∃ before between, b.message = before ++ t.text ++ between ++ u.text := by
  cases b <;> cases opposed
  case inputType i => exact ⟨"input " ++ Nat.repr i ++ " has type ", ", result has type ", rfl⟩
  case operandTypes => exact ⟨"operand types differ: ", " vs ", rfl⟩
  case incompatible => exact ⟨"input ", " is incompatible with ", rfl⟩
  case savedType => exact ⟨"cannot save ", " into ", rfl⟩

/-- If a breach sets two types against each other, they differ. -/
def Distinguishes (b : Breach) : Prop := ∀ t u, b.opposed? = some (t, u) → t ≠ u

end Breach

namespace Op

open Breach (Distinguishes opposed?)

theorem forall_mem_breachIf {P : Breach → Prop} {broken : Bool} {b : Breach} :
    (∀ c ∈ breachIf broken b, P c) ↔ (broken → P b) := by
  cases broken <;> simp [breachIf]

theorem distinguishes_inputTypeBreaches (t : Typing) (indices : List Nat) :
    ∀ b ∈ inputTypeBreaches t indices, b.Distinguishes := by
  unfold inputTypeBreaches
  split
  · simp
  · rw [List.forall_mem_flatMap]
    intro i _
    split
    · simp
    · simp [forall_mem_breachIf, Distinguishes, opposed?]

theorem distinguishes_cmpLteBreaches (t : Typing) : ∀ b ∈ cmpLteBreaches t, b.Distinguishes := by
  rw [cmpLteBreaches, List.forall_mem_append]
  constructor
  · split <;> simp [forall_mem_breachIf, Distinguishes, opposed?]
  · split
    · simp
    · rw [List.forall_mem_append]
      constructor
      · simp [forall_mem_breachIf, Distinguishes, opposed?]
      · split <;> simp [forall_mem_breachIf, Distinguishes, opposed?]

theorem distinguishes_matMulBreaches (t : Typing) : ∀ b ∈ matMulBreaches t, b.Distinguishes := by
  unfold matMulBreaches
  split
  · rw [List.forall_mem_append, forall_mem_breachIf]
    constructor
    · unfold matMulDimsBreaches
      split
      · split
        · simp [Distinguishes, opposed?]
        · split <;> simp [forall_mem_breachIf, Distinguishes, opposed?]
      · simp [Distinguishes, opposed?]
    · simp [Distinguishes, opposed?]
  · simp

theorem distinguishes_selectBreaches (t : Typing) : ∀ b ∈ selectBreaches t, b.Distinguishes := by
  rw [selectBreaches, List.forall_mem_append, List.forall_mem_append]
  refine ⟨⟨?_, distinguishes_inputTypeBreaches t [1, 2]⟩, ?_⟩
  · split <;> simp [forall_mem_breachIf, Distinguishes, opposed?]
  · split <;> simp [forall_mem_breachIf, Distinguishes, opposed?]

theorem distinguishes_concatBreaches (t : Typing) : ∀ b ∈ concatBreaches t, b.Distinguishes := by
  unfold concatBreaches
  split
  · simp
  · next first others _ =>
    rw [List.forall_mem_append, List.forall_mem_flatMap]
    constructor
    · -- inputs of different element kind or rank are not of one type
      intro other _
      rw [forall_mem_breachIf]
      rintro broken t u ⟨⟩ rfl
      simp at broken
    · split <;> simp [forall_mem_breachIf, Distinguishes, opposed?]

theorem distinguishes_topKBreaches (t : Typing) : ∀ b ∈ topKBreaches t, b.Distinguishes := by
  rw [topKBreaches, List.forall_mem_append]
  constructor
  · split <;> simp [forall_mem_breachIf, Distinguishes, opposed?]
  · split <;> simp [forall_mem_breachIf, Distinguishes, opposed?]

theorem distinguishes_saveBreaches (t : Typing) : ∀ b ∈ saveBreaches t, b.Distinguishes := by
  unfold saveBreaches
  split <;> simp [forall_mem_breachIf, Distinguishes, opposed?]

/-- What breaks a rule about two types is that they differ. -/
theorem distinguishes_breaches (op : Op) (t : Typing) : ∀ b ∈ op.breaches t, b.Distinguishes := by
  cases op with
  | placeholder | constant | splat => simp [breaches]
  | add | sub | mul | div | max | min | relu | sigmoid | tanh =>
    exact distinguishes_inputTypeBreaches t _
  | cmpLte => exact distinguishes_cmpLteBreaches t
  | matMul => exact distinguishes_matMulBreaches t
  | select => exact distinguishes_selectBreaches t
  | concat => exact distinguishes_concatBreaches t
  | topK => exact distinguishes_topKBreaches t
  | save => exact distinguishes_saveBreaches t

end Op

/-- Two types have the same text only if they are the same. So a message that sets two types against
each other shows two texts that differ. -/
theorem text_determines_type :
    (∀ t u : TensorType, t.text = u.text ↔ t = u) ∧
    ∀ (op : Op) (typing : Typing) (b : Breach) (t u : TensorType),
      b ∈ op.breaches typing → b.opposed? = some (t, u) →
        t.text ≠ u.text ∧ ∃ before between, b.message = before ++ t.text ++ between ++ u.text := by
  refine ⟨fun t u => TensorType.text_inj, fun op typing b t u found opposed => ⟨?_, ?_⟩⟩
  · rw [ne_eq, TensorType.text_inj]
    exact Op.distinguishes_breaches op typing b found t u opposed
  · exact Breach.exists_message_eq opposed

/-- The digits of two types can be the same ones in the same order. -/
theorem text_determines_type_saved :
    let t : TensorType := ⟨.float, [1, 23]⟩
    let u : TensorType := ⟨.float, [12, 3]⟩
    .savedType t u ∈ Op.save.breaches ⟨[some t, some u], []⟩ ∧ t.text ≠ u.text := by
  intro t u
  have found : .savedType t u ∈ Op.save.breaches ⟨[some t, some u], []⟩ := by decide
  exact ⟨found, (text_determines_type.2 .save _ _ t u found rfl).1⟩

end Dataflow
