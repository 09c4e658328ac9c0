import GekkoFwd.MetadataDb

/-! The merge operator over values and operands instead of their texts. Encoding and
decoding cancel, so that a cell of the database stands for one piece of metadata, to
which every further operand is applied, however RocksDB has folded it in between. -/

namespace GekkoFwd.Proofs.MergeLaws
open DecText

theorem not_digit_msp {rest : Str} : ∀ c, (Metadata.msp :: rest).head? = some c → c.isDigit = false := by
  intro c head
  cases head
  decide

theorem serialize_default (md : Metadata) : md.serialize .default =
    toText md.mode.toNat ++ Metadata.msp :: (toText md.size.toNat ++ Metadata.msp :: md.targetPath) := by
  simp [Metadata.serialize, MetadataConfig.default]

/-- Sizes that are read back as a signed number without loss. -/
def Signed (size : Word) : Prop := size.toNat < 2 ^ 63

/-- What the default text form can hold: the other fields are not written, a target
belongs to a link, and the size is signed. -/
structure Recorded (md : Metadata) : Prop where
  unwritten : md.atime = 0 ∧ md.mtime = 0 ∧ md.ctime = 0 ∧ md.linkCount = 0 ∧ md.blocks = 0
  target : (md.targetPath.isEmpty || Mode.isLnk md.mode) = true
  size : Signed md.size

theorem recorded_ofMode (mode : Mode) : Recorded (Metadata.ofMode mode) :=
  ⟨⟨rfl, rfl, rfl, rfl, rfl⟩, rfl, by simp [Signed, Metadata.ofMode]⟩

theorem field_size (ndebug : Bool) {size : Word} (small : Signed size) (rest : Str) :
    Metadata.field ndebug stol (Metadata.msp :: (toText size.toNat ++ Metadata.msp :: rest)) =
      .ok ((size.toNat : Int), Metadata.msp :: rest) := by
  have read := @stol_toText size.toNat (Metadata.msp :: rest) small not_digit_msp
  simp [Metadata.field, read, Metadata.ofFailure, bind, Except.bind, pure, Except.pure, Nat.add_comm 1]

/-- What a parsed text yields, whatever its size. -/
structure Parsed (ndebug : Bool) (md : Metadata) : Prop where
  unwritten : md.atime = 0 ∧ md.mtime = 0 ∧ md.ctime = 0 ∧ md.linkCount = 0 ∧ md.blocks = 0
  target : (ndebug || (md.targetPath.isEmpty || Mode.isLnk md.mode)) = true

/-- A size with its sign bit is written but not read back. -/
theorem parse_serialize_limit {ndebug : Bool} {md : Metadata} (parsed : Parsed ndebug md) :
    Metadata.parse .default ndebug (md.serialize .default) = if md.size.toNat < 2 ^ 63 then .ok md else .error .outOfRange := by
  obtain ⟨atime, mtime, ctime, mode, linkCount, size, blocks, targetPath⟩ := md
  obtain ⟨⟨rfl, rfl, rfl, rfl, rfl⟩, target⟩ := parsed
  have readMode := @stoul_toText mode.toNat (Metadata.msp :: (toText size.toNat ++ Metadata.msp :: targetPath))
    (Nat.lt_trans mode.isLt (by decide)) not_digit_msp
  have modeValue : BitVec.ofNat 32 mode.toNat = mode := by simp
  have sizeValue : BitVec.ofInt 64 (size.toNat : Int) = size := by simp
  have checked : assertThat ndebug (targetPath.isEmpty || Mode.isLnk mode) = .ok () := if_pos target
  rw [serialize_default]
  simp only [Metadata.parse, readMode, Metadata.ofFailure, bind, Except.bind, List.drop_left, Metadata.optional,
    MetadataConfig.default, Bool.false_eq_true, if_false, pure, Except.pure]
  by_cases small : size.toNat < 2 ^ 63
  · simp only [field_size ndebug small, List.head?_cons, beq_self_eq_true, assertThat_true, List.drop_succ_cons, List.drop_zero,
      modeValue, sizeValue, checked, small, if_true]
    rfl
  · have read := @stol_toText_overflow size.toNat (Metadata.msp :: targetPath) (Nat.le_of_not_lt small) not_digit_msp
    rw [if_neg small]
    simp [Metadata.field, read, Metadata.ofFailure, bind, Except.bind]

theorem parse_serialize (ndebug : Bool) {md : Metadata} (recorded : Recorded md) :
    Metadata.parse .default ndebug (md.serialize .default) = .ok md := by
  have parsed : Parsed ndebug md := ⟨recorded.unwritten, by rw [recorded.target, Bool.or_true]⟩
  rw [parse_serialize_limit parsed]
  exact if_pos recorded.size

/-- The text of metadata determines its size. -/
theorem size_of_serialize_eq {md other : Metadata} (same : md.serialize .default = other.serialize .default) :
    md.size = other.size := by
  have split : ∀ {first second : Nat} {rest rest' : Str}, toText first ++ Metadata.msp :: rest = toText second ++ Metadata.msp :: rest' →
      first = second ∧ rest = rest' := by
    intro first second rest rest' same
    have digits := congrArg (fun text => (scan text).digits) same
    simp only [scan_toText _ not_digit_msp] at digits
    rw [digits, List.append_cancel_left_eq, List.cons.injEq] at same
    exact ⟨toText_injective digits, same.2⟩
  rw [serialize_default, serialize_default] at same
  exact BitVec.eq_of_toNat_eq (split (split same).2).1

/-- The effect of an operand on the size. -/
def effect (ndebug : Bool) (fsize : Word) : MergeOperand → Except Exn Word
  | .increaseSize size append => .ok (if append then fsize + size else if size < fsize then fsize else size)
  | .decreaseSize size => do
    assertThat ndebug (decide (size < fsize))
    return size
  | .create _ => .ok fsize

/-- An operand that passes its assertion has the same effect in every build. -/
theorem effect_release (ndebug : Bool) {fsize size : Word} {operand : MergeOperand}
    (applied : effect false fsize operand = .ok size) : effect ndebug fsize operand = .ok size := by
  cases operand with
  | increaseSize | create => exact applied
  | decreaseSize length =>
    by_cases less : length < fsize
    · simpa [effect, less] using applied
    · simp [effect, less, assertThat, bind, Except.bind] at applied

theorem parseIncreaseSize_params (ndebug : Bool) (size : Word) (append : Bool) :
    MergeOperand.parseIncreaseSize ndebug (MergeOperand.increaseSize size append).serializeParams = .ok (size, append) := by
  have read : ∀ flag, stoul (toText size.toNat ++ [',', flag]) = .ok (size.toNat, (toText size.toNat).length) := by
    refine fun flag => stoul_toText size.isLt fun c head => ?_
    cases head
    decide
  have value : BitVec.ofNat 64 size.toNat = size := by simp
  cases append <;>
    simp [MergeOperand.serializeParams, MergeOperand.parseIncreaseSize, read, Metadata.ofFailure, value, bind, Except.bind,
      pure, Except.pure]

theorem parseDecreaseSize_params (ndebug : Bool) (size : Word) :
    MergeOperand.parseDecreaseSize ndebug (MergeOperand.decreaseSize size).serializeParams = .ok size := by
  have read := @stoul_toText size.toNat [] size.isLt (by simp)
  rw [List.append_nil] at read
  have value : BitVec.ofNat 64 size.toNat = size := by simp
  simp [MergeOperand.serializeParams, MergeOperand.parseDecreaseSize, read, Metadata.ofFailure, value, bind, Except.bind, pure,
    Except.pure]

theorem getParams_serialize (ndebug : Bool) (operand : MergeOperand) :
    MergeOperand.getParams ndebug operand.serialize = .ok operand.serializeParams := by
  simp [MergeOperand.getParams, MergeOperand.serialize, bind, Except.bind, pure, Except.pure]

theorem getId_serialize (operand : MergeOperand) : MergeOperand.getId operand.serialize = operand.id := rfl

theorem applyOperand_serialize (ndebug : Bool) (fsize : Word) (operand : MergeOperand) :
    MetadataMergeOperator.applyOperand ndebug fsize operand.serialize = effect ndebug fsize operand := by
  have long : decide (2 ≤ operand.serialize.length) = true := by simp [MergeOperand.serialize]
  rw [MetadataMergeOperator.applyOperand, long, assertThat_true, getParams_serialize, getId_serialize]
  cases operand with
  | increaseSize size append => simp [MergeOperand.id, parseIncreaseSize_params, effect, bind, Except.bind, pure, Except.pure]
  | decreaseSize size => simp [MergeOperand.id, parseDecreaseSize_params, effect, bind, Except.bind, pure, Except.pure]
  | create metadata => simp [MergeOperand.id, effect, bind, Except.bind, pure, Except.pure]

theorem foldlM_serialize (ndebug : Bool) (fsize : Word) (operands : List MergeOperand) :
    (operands.map MergeOperand.serialize).foldlM (MetadataMergeOperator.applyOperand ndebug) fsize =
      operands.foldlM (effect ndebug) fsize := by
  rw [List.foldlM_map]
  congr 1
  funext fsize operand
  exact applyOperand_serialize ndebug fsize operand

/-- The metadata a cell stands for: a value or a creation, then one operand after the
other. `fits` says which sizes may come up on the way. -/
inductive Holds (ndebug : Bool) (fits : Word → Prop) : Cell → Metadata → Prop where
  | created {md : Metadata} (recorded : Recorded md) :
      Holds ndebug fits ⟨none, [(MergeOperand.create (md.serialize .default)).serialize]⟩ md
  | put {md : Metadata} (recorded : Recorded md) : Holds ndebug fits ⟨some (md.serialize .default), []⟩ md
  | merge {cell : Cell} {md : Metadata} {operand : MergeOperand} {size : Word} (before : Holds ndebug fits cell md)
      (applied : effect ndebug md.size operand = .ok size) (small : fits size) :
      Holds ndebug fits (cell.merge operand.serialize) { md with size }

section Cells
variable {ndebug : Bool} {fits : Word → Prop} {cell : Cell} {md : Metadata}

/-- The part of `FullMergeV2` before the result is written as text again. -/
def folded (ndebug : Bool) (cell : Cell) : Except Exn Metadata := do
  let (prevMdValue, operands) ← MetadataMergeOperator.mergeStart ndebug cell.base cell.operands
  let md ← Metadata.parse .default ndebug prevMdValue
  let fsize ← operands.foldlM (MetadataMergeOperator.applyOperand ndebug) md.size
  return { md with size := fsize }

theorem fullMergeV2_eq (ndebug : Bool) (cell : Cell) : MetadataMergeOperator.fullMergeV2 .default ndebug cell.base cell.operands =
    (do
      let md ← folded ndebug cell
      return md.serialize .default) := by
  simp only [MetadataMergeOperator.fullMergeV2, folded, bind_assoc, pure_bind]

theorem mergeStart_concat {base : Option Str} {operands : List Str} (started : base ≠ none ∨ operands ≠ []) (operand : Str) :
    MetadataMergeOperator.mergeStart ndebug base (operands ++ [operand]) = (do
      let start ← MetadataMergeOperator.mergeStart ndebug base operands
      return (start.1, start.2 ++ [operand])) := by
  cases base with
  | some value => rfl
  | none =>
    cases operands with
    | nil => simp at started
    | cons first operands =>
      simp only [List.cons_append, MetadataMergeOperator.mergeStart]
      split
      next => rfl
      next => simp only [bind_assoc, pure_bind]

/-- A cell with something in it: an operand more is applied to what it stood for. -/
theorem folded_merge (started : cell.base ≠ none ∨ cell.operands ≠ []) (operand : Str) :
    folded ndebug (cell.merge operand) = (do
      let md ← folded ndebug cell
      let fsize ← MetadataMergeOperator.applyOperand ndebug md.size operand
      return { md with size := fsize }) := by
  simp only [folded, Cell.merge, mergeStart_concat started, bind_assoc, pure_bind, List.foldlM_append, List.foldlM_cons,
    List.foldlM_nil, bind_pure]

theorem Holds.started (holds : Holds ndebug fits cell md) : cell.base ≠ none ∨ cell.operands ≠ [] := by
  cases holds with
  | created => exact .inr (by simp)
  | put => exact .inl (by simp)
  | merge => exact .inr (by simp [Cell.merge])

theorem Holds.folded (holds : Holds ndebug fits cell md) : folded ndebug cell = .ok md := by
  induction holds with
  | created recorded =>
    simp [MergeLaws.folded, MetadataMergeOperator.mergeStart, getId_serialize, getParams_serialize, MergeOperand.id,
      MergeOperand.serializeParams, parse_serialize _ recorded, bind, Except.bind, pure, Except.pure]
  | put recorded =>
    simp [MergeLaws.folded, MetadataMergeOperator.mergeStart, parse_serialize _ recorded, bind, Except.bind, pure, Except.pure]
  | merge before applied _ ih =>
    rw [folded_merge before.started, ih]
    simp only [applyOperand_serialize, applied, bind, Except.bind, pure, Except.pure]

theorem value_of_pending (pending : cell.operands ≠ []) : cell.value .default ndebug = (do
    let md ← folded ndebug cell
    return md.serialize .default) := by
  rw [← fullMergeV2_eq, Cell.value]
  split
  next none => exact absurd none pending
  next none => exact absurd none pending
  next => rfl

/-- Reading a cell gives the text of what it stands for. -/
theorem Holds.value (holds : Holds ndebug fits cell md) : cell.value .default ndebug = .ok (md.serialize .default) := by
  by_cases pending : cell.operands = []
  · cases holds with
    | put recorded => rfl
    | created recorded => cases pending
    | merge => simp [Cell.merge] at pending
  · rw [value_of_pending pending, holds.folded]
    rfl

theorem Holds.recorded (holds : Holds ndebug Signed cell md) : Recorded md := by
  induction holds with
  | created recorded => exact recorded
  | put recorded => exact recorded
  | merge _ _ small ih => exact ⟨ih.unwritten, ih.target, small⟩

theorem Holds.release (holds : Holds false fits cell md) (ndebug : Bool) : Holds ndebug fits cell md := by
  induction holds with
  | created recorded => exact .created recorded
  | put recorded => exact .put recorded
  | merge _ applied small ih => exact .merge ih (effect_release ndebug applied) small

theorem Holds.fullMergeV2 (holds : Holds ndebug fits cell md) :
    MetadataMergeOperator.fullMergeV2 .default ndebug cell.base cell.operands = .ok (md.serialize .default) := by
  rw [fullMergeV2_eq, holds.folded]
  rfl

theorem Holds.collapse_all (holds : Holds false fits cell md) (ndebug : Bool) {count : Nat}
    (all : cell.operands.length ≤ count) (pending : cell.operands ≠ []) :
    cell.collapse .default ndebug count = ⟨some (md.serialize .default), []⟩ := by
  rw [Cell.collapse, List.take_of_length_le all, List.drop_of_length_le all]
  split
  next none => exact absurd none pending
  next first rest some => rw [← some, (holds.release ndebug).fullMergeV2]

theorem collapse_merge {count : Nat} (leading : count ≤ cell.operands.length) (operand : Str) :
    (cell.merge operand).collapse .default ndebug count = (cell.collapse .default ndebug count).merge operand := by
  simp only [Cell.collapse, Cell.merge, List.take_append_of_le_length leading, List.drop_append_of_le_length leading]
  split
  next => rfl
  next => split <;> rfl

/-- A full merge of any leading operands changes the text but not its meaning. -/
theorem Holds.collapse (holds : Holds false Signed cell md) (ndebug : Bool) (count : Nat) :
    Holds false Signed (cell.collapse .default ndebug count) md := by
  by_cases all : cell.operands.length ≤ count ∧ cell.operands ≠ []
  · rw [holds.collapse_all ndebug all.1 all.2]
    exact .put holds.recorded
  · induction holds with
    | created recorded =>
      have none : count = 0 := by
        by_contra some
        exact all ⟨Nat.pos_of_ne_zero some, by simp⟩
      subst none
      exact .created recorded
    | put recorded => simpa [Cell.collapse] using Holds.put recorded
    | @merge cell md operand size before applied small ih =>
      have leading : count ≤ cell.operands.length := by
        by_contra more
        exact all ⟨by simp [Cell.merge]; omega, by simp [Cell.merge]⟩
      rw [collapse_merge leading]
      refine .merge ?_ applied small
      by_cases whole : cell.operands.length ≤ count ∧ cell.operands ≠ []
      · rw [before.collapse_all ndebug whole.1 whole.2]
        exact .put before.recorded
      · exact ih whole

/-- No full merge of leading operands fails, in any build. -/
theorem Holds.merges (holds : Holds false fits cell md) {count : Nat} (some : cell.operands.take count ≠ []) :
    ∃ value, ∀ ndebug, MetadataMergeOperator.fullMergeV2 .default ndebug cell.base (cell.operands.take count) = .ok value := by
  by_cases all : cell.operands.length ≤ count
  · rw [List.take_of_length_le all]
    exact ⟨_, fun ndebug => (holds.release ndebug).fullMergeV2⟩
  · induction holds with
    | created => exact absurd (Nat.one_le_iff_ne_zero.mpr fun none => some (by rw [none, List.take_zero])) all
    | put => simp at some
    | @merge cell md operand size before applied small ih =>
      have leading : count ≤ cell.operands.length := by
        simp only [Cell.merge, List.length_append, List.length_singleton] at all
        omega
      have same : (cell.merge operand.serialize).operands.take count = cell.operands.take count :=
        List.take_append_of_le_length leading
      rw [same] at some ⊢
      by_cases whole : cell.operands.length ≤ count
      · rw [List.take_of_length_le whole]
        exact ⟨_, fun ndebug => (before.release ndebug).fullMergeV2⟩
      · exact ih some whole

end Cells

end GekkoFwd.Proofs.MergeLaws
