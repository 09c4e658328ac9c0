import GekkoFwd.Lib.Words
import GekkoFwd.Proofs.MergeLaws

/-! RocksDB may cut a list of operands anywhere and keep the value of the first part as
text. The operands then still add up to the same metadata, which the sizes alone
describe. -/

namespace GekkoFwd.Proofs.MergeSplitting
open MergeLaws

/-- The size after an operand, as a number. -/
def sizeAfter (size : Nat) : MergeOperand → Nat
  | .increaseSize length append => if append then size + length.toNat else max size length.toNat
  | .decreaseSize length => length.toNat
  | .create _ => size

/-- Sizes stay small on the way, and a decrease makes the size smaller. -/
def Fits : Nat → List MergeOperand → Prop
  | _, [] => True
  | size, operand :: operands =>
    (∀ length, operand = .decreaseSize length → length.toNat < size) ∧ sizeAfter size operand < 2 ^ 63 ∧
      Fits (sizeAfter size operand) operands

/-- Metadata whose text can be read back. -/
structure Serialisable (md : Metadata) : Prop where
  target : (md.targetPath.isEmpty || Mode.isLnk md.mode) = true
  size : md.size.toNat < 2 ^ 63

/-- What the operands are applied to, and which of them: the value that is there, or
the one that the first operand creates. -/
inductive Starts : Option Metadata → List MergeOperand → Metadata → List MergeOperand → Prop where
  | existing {md : Metadata} {operands : List MergeOperand} : Starts (some md) operands md operands
  | created {md : Metadata} {operands : List MergeOperand} :
      Starts none (.create (md.serialize .default) :: operands) md operands

/-- A first operand that creates has the text of metadata, and the sizes fit. -/
structure Admissible (existing : Option Metadata) (operands : List MergeOperand) : Prop where
  creates : existing = none → ∀ text rest, operands = .create text :: rest → ∃ md, text = Metadata.serialize .default md
  value : ∀ md rest, Starts existing operands md rest → Serialisable md ∧ Fits md.size.toNat rest

section Fold
variable {ndebug : Bool} {md : Metadata} {operands : List MergeOperand}

theorem fits_append {size : Nat} {first second : List MergeOperand} :
    Fits size (first ++ second) ↔ Fits size first ∧ Fits (first.foldl sizeAfter size) second := by
  induction first generalizing size with
  | nil => simp [Fits]
  | cons operand first ih => simp only [List.cons_append, Fits, ih, List.foldl_cons, and_assoc]

theorem effect_eq {size : Word} {operand : MergeOperand}
    (smaller : ∀ length, operand = .decreaseSize length → length.toNat < size.toNat) (next : sizeAfter size.toNat operand < 2 ^ 63) :
    ∃ after, effect ndebug size operand = .ok after ∧ after.toNat = sizeAfter size.toNat operand := by
  cases operand with
  | create text => exact ⟨size, rfl, rfl⟩
  | decreaseSize length =>
    have less : length < size := BitVec.lt_def.mpr (smaller length rfl)
    exact ⟨length, by simp [effect, less, bind, Except.bind, pure, Except.pure], rfl⟩
  | increaseSize length append =>
    refine ⟨_, rfl, ?_⟩
    cases append with
    | true =>
      simp only [sizeAfter, if_true] at next ⊢
      rw [BitVec.toNat_add, Nat.mod_eq_of_lt (by omega)]
    | false =>
      simp only [sizeAfter, Bool.false_eq_true, if_false]
      exact Words.toNat_larger size length

theorem foldlM_effect {size : Word} (small : size.toNat < 2 ^ 63) (fits : Fits size.toNat operands) :
    ∃ after, operands.foldlM (effect ndebug) size = .ok after ∧ after.toNat = operands.foldl sizeAfter size.toNat ∧
      after.toNat < 2 ^ 63 := by
  induction operands generalizing size with
  | nil => exact ⟨size, rfl, rfl, small⟩
  | cons operand operands ih =>
    obtain ⟨smaller, next, rest⟩ := fits
    obtain ⟨between, applied, value⟩ := @effect_eq ndebug size operand smaller next
    obtain ⟨after, folded, total, bounded⟩ := @ih between (by rw [value]; exact next) (by rw [value]; exact rest)
    refine ⟨after, ?_, by rw [total, value, List.foldl_cons], bounded⟩
    rw [List.foldlM_cons, applied]
    exact folded

/-- The fields that the default text does not hold. -/
def plain (md : Metadata) : Metadata := { md with atime := 0, mtime := 0, ctime := 0, linkCount := 0, blocks := 0 }

theorem parse_serialisable (ndebug : Bool) (valid : Serialisable md) :
    Metadata.parse .default ndebug (md.serialize .default) = .ok (plain md) := by
  have same : md.serialize .default = (plain md).serialize .default := by
    rw [serialize_default, serialize_default]
    rfl
  rw [same]
  exact parse_serialize ndebug ⟨⟨rfl, rfl, rfl, rfl, rfl⟩, valid.target, valid.size⟩

/-- A full merge applies the operands to the size and keeps everything else. -/
theorem fullMergeV2_existing (valid : Serialisable md) (fits : Fits md.size.toNat operands) :
    ∃ size : Word, MetadataMergeOperator.fullMergeV2 .default ndebug (some (md.serialize .default)) (operands.map MergeOperand.serialize) =
        .ok ({ md with size }.serialize .default) ∧
      size.toNat = operands.foldl sizeAfter md.size.toNat ∧ size.toNat < 2 ^ 63 := by
  obtain ⟨size, folded, total, bounded⟩ := @foldlM_effect ndebug operands md.size valid.size fits
  refine ⟨size, ?_, total, bounded⟩
  simp only [MetadataMergeOperator.fullMergeV2, MetadataMergeOperator.mergeStart, parse_serialisable ndebug valid, bind, Except.bind,
    pure, Except.pure]
  rw [foldlM_serialize, show (plain md).size = md.size from rfl, folded]
  simp only [serialize_default, plain]

theorem fullMergeV2_created (md : Metadata) (operands : List MergeOperand) :
    MetadataMergeOperator.fullMergeV2 .default ndebug none
        ((MergeOperand.create (md.serialize .default) :: operands).map MergeOperand.serialize) =
      MetadataMergeOperator.fullMergeV2 .default ndebug (some (md.serialize .default)) (operands.map MergeOperand.serialize) := by
  simp only [MetadataMergeOperator.fullMergeV2, MetadataMergeOperator.mergeStart, List.map_cons, getId_serialize, MergeOperand.id,
    getParams_serialize, MergeOperand.serializeParams, bind, Except.bind, pure, Except.pure, ne_eq, not_true_eq_false, if_false]

theorem Starts.fullMergeV2 {existing : Option Metadata} {rest : List MergeOperand} (starts : Starts existing operands md rest) :
    MetadataMergeOperator.fullMergeV2 .default ndebug (existing.map (Metadata.serialize .default)) (operands.map MergeOperand.serialize) =
      MetadataMergeOperator.fullMergeV2 .default ndebug (some (md.serialize .default)) (rest.map MergeOperand.serialize) := by
  cases starts with
  | existing => rfl
  | created => exact fullMergeV2_created md rest

end Fold

section Split
variable {ndebug : Bool} {existing : Option Metadata} {first second rest : List MergeOperand} {md : Metadata}

/-- The first part starts the merge, or the whole cannot start. -/
theorem starts_or_fails (admissible : Admissible existing (first ++ second)) (nonempty : first ≠ []) :
    (∃ md rest, Starts existing first md rest) ∨ existing = none ∧ ∀ text, first.head? ≠ some (.create text) := by
  cases existing with
  | some md => exact .inl ⟨md, first, .existing⟩
  | none =>
    obtain ⟨operand, first, rfl⟩ := List.exists_cons_of_ne_nil nonempty
    cases operand with
    | create text =>
      obtain ⟨md, rfl⟩ := admissible.creates rfl text (first ++ second) rfl
      exact .inl ⟨md, first, .created⟩
    | increaseSize | decreaseSize => exact .inr ⟨rfl, fun text same => by cases same⟩

theorem Starts.append (starts : Starts existing first md rest) (second : List MergeOperand) :
    Starts existing (first ++ second) md (rest ++ second) := by
  cases starts with
  | existing => exact .existing
  | created => exact .created

/-- Without a value and without a creation nothing can be merged. -/
theorem fullMergeV2_fails (nonempty : first ≠ []) (other : ∀ text, first.head? ≠ some (.create text)) (second : List MergeOperand) :
    MetadataMergeOperator.fullMergeV2 .default ndebug none ((first ++ second).map MergeOperand.serialize) = .error .runtimeError := by
  obtain ⟨operand, first, rfl⟩ := List.exists_cons_of_ne_nil nonempty
  have notCreate : operand.id ≠ 'c' := by
    cases operand with
    | create text => exact absurd rfl (other text)
    | increaseSize | decreaseSize => simp [MergeOperand.id]
  simp [MetadataMergeOperator.fullMergeV2, MetadataMergeOperator.mergeStart, getId_serialize, notCreate, bind, Except.bind]

/-- A cut after the first part: both merges in turn give what one gives. -/
theorem Starts.split (starts : Starts existing first md rest) (valid : Serialisable md) (fits : Fits md.size.toNat (rest ++ second)) :
    ∃ size : Word, size.toNat = (rest ++ second).foldl sizeAfter md.size.toNat ∧
      MetadataMergeOperator.fullMergeV2 .default ndebug (existing.map (Metadata.serialize .default))
          ((first ++ second).map MergeOperand.serialize) = .ok ({ md with size }.serialize .default) ∧
      (do
        let value ← MetadataMergeOperator.fullMergeV2 .default ndebug (existing.map (Metadata.serialize .default))
          (first.map MergeOperand.serialize)
        MetadataMergeOperator.fullMergeV2 .default ndebug (some value) (second.map MergeOperand.serialize)) =
          .ok ({ md with size }.serialize .default) := by
  obtain ⟨fitsFirst, fitsSecond⟩ := fits_append.mp fits
  obtain ⟨size, whole, total, _⟩ := @fullMergeV2_existing ndebug md (rest ++ second) valid fits
  obtain ⟨between, part, value, small⟩ := @fullMergeV2_existing ndebug md rest valid fitsFirst
  have still : Serialisable { md with size := between } := ⟨valid.target, small⟩
  obtain ⟨last, remaining, sum, _⟩ :=
    @fullMergeV2_existing ndebug { md with size := between } second still (by rw [value]; exact fitsSecond)
  have same : last = size := by
    apply BitVec.eq_of_toNat_eq
    rw [sum, total, List.foldl_append]
    exact congrArg (fun start => second.foldl sizeAfter start) value
  subst same
  refine ⟨last, total, ?_, ?_⟩
  · rw [(starts.append second).fullMergeV2]
    exact whole
  · rw [starts.fullMergeV2, part]
    simp only [bind, Except.bind]
    exact remaining

end Split

/-- Where RocksDB cuts the operands makes no difference, and the result is the left fold
of the sizes. -/
theorem merge_splits (ndebug : Bool) {existing : Option Metadata} {first second : List MergeOperand} (nonempty : first ≠ [])
    (admissible : Admissible existing (first ++ second)) :
    MetadataMergeOperator.fullMergeV2 .default ndebug (existing.map (Metadata.serialize .default))
        ((first ++ second).map MergeOperand.serialize) = (do
      let value ← MetadataMergeOperator.fullMergeV2 .default ndebug (existing.map (Metadata.serialize .default))
        (first.map MergeOperand.serialize)
      MetadataMergeOperator.fullMergeV2 .default ndebug (some value) (second.map MergeOperand.serialize)) ∧
    ((∃ error, MetadataMergeOperator.fullMergeV2 .default ndebug (existing.map (Metadata.serialize .default))
        ((first ++ second).map MergeOperand.serialize) = .error error) ↔
      existing = none ∧ ∀ text, first.head? ≠ some (.create text)) ∧
    ∀ md rest, Starts existing (first ++ second) md rest → ∃ size : Word, size.toNat = rest.foldl sizeAfter md.size.toNat ∧
      MetadataMergeOperator.fullMergeV2 .default ndebug (existing.map (Metadata.serialize .default))
        ((first ++ second).map MergeOperand.serialize) = .ok ({ md with size }.serialize .default) := by
  refine ⟨?_, ?_, fun md rest starts => ?_⟩
  · rcases starts_or_fails admissible nonempty with ⟨md, rest, starts⟩ | ⟨rfl, other⟩
    · obtain ⟨valid, fits⟩ := admissible.value md _ (starts.append second)
      obtain ⟨size, _, whole, parts⟩ := @Starts.split ndebug _ _ _ _ _ starts valid fits
      exact whole.trans parts.symm
    · have part := @fullMergeV2_fails ndebug _ nonempty other []
      rw [List.append_nil] at part
      rw [Option.map_none, fullMergeV2_fails nonempty other second, part]
      rfl
  · constructor
    · rintro ⟨error, failed⟩
      refine (starts_or_fails admissible nonempty).resolve_left ?_
      rintro ⟨md, rest, starts⟩
      obtain ⟨valid, fits⟩ := admissible.value md _ (starts.append second)
      obtain ⟨size, _, whole, _⟩ := @Starts.split ndebug _ _ _ _ _ starts valid fits
      cases whole.symm.trans failed
    · rintro ⟨rfl, other⟩
      exact ⟨_, fullMergeV2_fails nonempty other second⟩
  · obtain ⟨valid, fits⟩ := admissible.value md rest starts
    obtain ⟨size, merged, total, _⟩ := @fullMergeV2_existing ndebug md rest valid fits
    exact ⟨size, total, by rw [starts.fullMergeV2, merged]⟩

/-- Two writes and a truncation of an empty file, with a cut after the first write. -/
theorem merge_splits_file :
    Admissible (some (Metadata.ofMode Mode.ifreg)) ([.increaseSize 7 false] ++ [.increaseSize 5 true, .decreaseSize 3]) ∧
      ∃ size : Word, size.toNat = 3 ∧ MetadataMergeOperator.fullMergeV2 .default false
        (some ((Metadata.ofMode Mode.ifreg).serialize .default))
        (([.increaseSize 7 false] ++ [.increaseSize 5 true, .decreaseSize 3] : List MergeOperand).map MergeOperand.serialize) =
          .ok ({ Metadata.ofMode Mode.ifreg with size }.serialize .default) := by
  have admissible : Admissible (some (Metadata.ofMode Mode.ifreg))
      ([.increaseSize 7 false] ++ [.increaseSize 5 true, .decreaseSize 3]) := by
    refine ⟨nofun, fun md rest starts => ?_⟩
    cases starts with
    | existing => exact ⟨⟨rfl, by decide⟩, nofun, by decide, nofun, by decide, fun length same => by cases same; decide, by decide, trivial⟩
  obtain ⟨_, _, folds⟩ := merge_splits false (List.cons_ne_nil _ _) admissible
  exact ⟨admissible, folds _ _ .existing⟩

end GekkoFwd.Proofs.MergeSplitting
