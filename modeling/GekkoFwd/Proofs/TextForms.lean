import GekkoFwd.Proofs.MergeLaws

/-! The text forms that the metadata database stores, metadata and merge operands: what is
written is read back, up to the last character. -/

namespace GekkoFwd.Proofs.TextForms
open DecText Metadata

/-- Text that goes on with a separator. -/
def Continues (rest : Str) : Prop := rest.head? = some msp

theorem Continues.not_digit {rest : Str} (continues : Continues rest) : ∀ c, rest.head? = some c → c.isDigit = false := by
  intro c head
  cases continues.symm.trans head
  decide

section pointer
variable {before text rest : Str}

theorem cStr_append (plain : '\x00' ∉ text) :
    cStr (before ++ (text ++ rest)) before.length = text ++ rest.takeWhile fun c => c != '\x00' := by
  rw [cStr, List.drop_left, List.takeWhile_append_of_pos]
  intro c member
  have other : c ≠ '\x00' := fun same => plain (same ▸ member)
  simpa using other

theorem cStr_target {data target : Str} (whole : data = before ++ msp :: target) (plain : '\x00' ∉ target) :
    Metadata.cStr data (before.length + 1) = target := by
  have string := @cStr_append (before ++ [msp]) target [] plain
  simpa [whole] using string

theorem Continues.takeWhile (continues : Continues rest) : Continues (rest.takeWhile fun c => c != '\x00') := by
  cases rest with
  | nil => cases continues
  | cons c rest =>
    obtain rfl : c = msp := Option.some.inj continues
    simp [Continues, msp]

/-- A conversion reads exactly this text, whatever comes behind its separator. -/
def Reads {α : Type} (convert : Str → Except Failure (α × Nat)) (text : Str) (value : α) : Prop :=
  ∀ rest, Continues rest → convert (text ++ rest) = .ok (value, text.length)

section field
variable {α : Type} {convert : Str → Except Failure (α × Nat)} {value : α} (ndebug : Bool)

theorem fieldAt_append {data : Str} (whole : data = before ++ (msp :: text ++ rest)) (plain : '\x00' ∉ text) (nonempty : text ≠ [])
    (reads : Reads convert text value) (continues : Continues rest) :
    fieldAt ndebug convert data before.length = .ok (value, (before ++ msp :: text).length) := by
  subst whole
  have separator : (before ++ (msp :: text ++ rest))[before.length]? = some msp := by simp
  have string : cStr (before ++ (msp :: text ++ rest)) (before.length + 1) = text ++ rest.takeWhile fun c => c != '\x00' := by
    have shifted := @cStr_append (before ++ [msp]) text rest plain
    simpa using shifted
  have positive : 0 < text.length := List.length_pos_of_ne_nil nonempty
  simp only [fieldAt, separator, beq_self_eq_true, assertThat_true, string, reads _ continues.takeWhile, ofFailure, positive,
    decide_true, bind, Except.bind, pure, Except.pure, List.length_append, List.length_cons]
  congr 2
  omega

/-- The text of an optional field. -/
def optionalText (enabled : Bool) (text : Str) : Str := if enabled then msp :: text else []

theorem Continues.optional (continues : Continues rest) (enabled : Bool) : Continues (optionalText enabled text ++ rest) := by
  cases enabled
  · exact continues
  · rfl

theorem optionalAt_append (absent : α) {data : Str} {enabled : Bool} (whole : data = before ++ (optionalText enabled text ++ rest))
    (plain : '\x00' ∉ text) (nonempty : text ≠ []) (reads : Reads convert text value) (continues : Continues rest) :
    optionalAt enabled ndebug convert absent data before.length =
      .ok (if enabled then value else absent, (before ++ optionalText enabled text).length) := by
  cases enabled with
  | false => simp [optionalAt, optionalText, pure, Except.pure]
  | true => exact fieldAt_append ndebug whole plain nonempty reads continues

end field

end pointer

/-! The numbers of the fields. -/

theorem nul_not_mem_toText (value : Nat) : '\x00' ∉ toText value := by
  intro member
  have digit := isDigit_of_mem_toText member
  revert digit
  decide

theorem nul_not_mem_intText (value : Int) : '\x00' ∉ intText value := by
  rw [intText]
  split
  · rintro (_ | ⟨_, member⟩)
    exact nul_not_mem_toText _ member
  · exact nul_not_mem_toText _

theorem stoul_mode {data rest : Str} {mode : Mode} (whole : data = toText mode.toNat ++ rest) (continues : Continues rest) :
    stoul (Metadata.cStr data 0) = .ok (mode.toNat, (toText mode.toNat).length) := by
  have string := @cStr_append [] _ rest (nul_not_mem_toText mode.toNat)
  rw [whole]
  exact (congrArg stoul string).trans (stoul_toText (Nat.lt_trans mode.isLt (by decide)) continues.takeWhile.not_digit)

theorem reads_unsigned (x : Word) : Reads stoul (toText x.toNat) x.toNat := fun _ continues =>
  stoul_toText x.isLt continues.not_digit

theorem reads_size {x : Word} (small : x.toNat < 2 ^ 63) : Reads stol (toText x.toNat) x.toNat := fun _ continues =>
  stol_toText small continues.not_digit

theorem reads_signed (x : Word) : Reads stol (intText x.toInt) x.toInt := fun _ continues =>
  stol_intText x.le_toInt x.toInt_lt continues.not_digit

/-- A block count is written as a signed number and read as an unsigned one. -/
theorem reads_blocks (x : Word) : Reads stoul (intText x.toInt) x.toNat := by
  intro rest continues
  have value : (x.toInt % 2 ^ 64).toNat = x.toNat := by
    rw [BitVec.toInt_eq_toNat_cond]
    have bound := x.isLt
    split <;> omega
  rw [stoul_intText x.le_toInt x.toInt_lt continues.not_digit, value]

/-- What the text of metadata keeps: the mandatory fields and the enabled ones. -/
def kept (config : MetadataConfig) (md : Metadata) : Metadata :=
  { md with
    atime := if config.useAtime then md.atime else 0
    mtime := if config.useMtime then md.mtime else 0
    ctime := if config.useCtime then md.ctime else 0
    linkCount := if config.useLinkCnt then md.linkCount else 0
    blocks := if config.useBlocks then md.blocks else 0 }

theorem ofInt_optional (enabled : Bool) (x : Word) :
    BitVec.ofInt 64 (if enabled = true then x.toInt else 0) = if enabled = true then x else 0 := by
  split
  · exact BitVec.ofInt_toInt
  · rfl

theorem ofNat_optional (enabled : Bool) (x : Word) :
    BitVec.ofNat 64 (if enabled = true then x.toNat else 0) = if enabled = true then x else 0 := by
  split
  · simp
  · rfl

theorem serialize_eq (config : MetadataConfig) (md : Metadata) : md.serialize config =
    toText md.mode.toNat ++ (msp :: toText md.size.toNat ++
      (optionalText config.useAtime (intText md.atime.toInt) ++
        (optionalText config.useMtime (intText md.mtime.toInt) ++
          (optionalText config.useCtime (intText md.ctime.toInt) ++
            (optionalText config.useLinkCnt (toText md.linkCount.toNat) ++
              (optionalText config.useBlocks (intText md.blocks.toInt) ++ msp :: md.targetPath)))))) := by
  simp only [serialize, optionalText, List.append_assoc]

theorem ofBinaryStr_serialize (config : MetadataConfig) (ndebug : Bool) {md : Metadata} (small : md.size.toNat < 2 ^ 63)
    (target : md.targetPath = [] ∨ Mode.isLnk md.mode = true) (plain : '\x00' ∉ md.targetPath) :
    ofBinaryStr config ndebug (md.serialize config) = .ok (kept config md, (md.serialize config).length) := by
  have whole := serialize_eq config md
  generalize md.serialize config = data at whole ⊢
  -- The texts behind the pointer, from the last one on.
  have behindBlocks : Continues (msp :: md.targetPath) := rfl
  have behindLinkCnt := @Continues.optional (intText md.blocks.toInt) _ behindBlocks config.useBlocks
  have behindCtime := @Continues.optional (toText md.linkCount.toNat) _ behindLinkCnt config.useLinkCnt
  have behindMtime := @Continues.optional (intText md.ctime.toInt) _ behindCtime config.useCtime
  have behindAtime := @Continues.optional (intText md.mtime.toInt) _ behindMtime config.useMtime
  have behindSize := @Continues.optional (intText md.atime.toInt) _ behindAtime config.useAtime
  have mode := stoul_mode whole (rfl : Continues (msp :: _))
  have size := fieldAt_append ndebug whole (nul_not_mem_toText _) (toText_ne_nil _) (reads_size small) behindSize
  rw [← List.append_assoc] at whole
  have atime := optionalAt_append ndebug 0 whole (nul_not_mem_intText _) (intText_ne_nil _) (reads_signed md.atime) behindAtime
  rw [← List.append_assoc] at whole
  have mtime := optionalAt_append ndebug 0 whole (nul_not_mem_intText _) (intText_ne_nil _) (reads_signed md.mtime) behindMtime
  rw [← List.append_assoc] at whole
  have ctime := optionalAt_append ndebug 0 whole (nul_not_mem_intText _) (intText_ne_nil _) (reads_signed md.ctime) behindCtime
  rw [← List.append_assoc] at whole
  have linkCount := optionalAt_append ndebug 0 whole (nul_not_mem_toText _) (toText_ne_nil _) (reads_unsigned md.linkCount)
    behindLinkCnt
  rw [← List.append_assoc] at whole
  have blocks := optionalAt_append ndebug 0 whole (nul_not_mem_intText _) (intText_ne_nil _) (reads_blocks md.blocks)
    behindBlocks
  rw [← List.append_assoc] at whole
  generalize toText md.mode.toNat ++ msp :: toText md.size.toNat ++ optionalText config.useAtime (intText md.atime.toInt) ++
      optionalText config.useMtime (intText md.mtime.toInt) ++ optionalText config.useCtime (intText md.ctime.toInt) ++
      optionalText config.useLinkCnt (toText md.linkCount.toNat) ++ optionalText config.useBlocks (intText md.blocks.toInt) = before
    at whole blocks
  have separator : data[before.length]? = some msp := by simp [whole]
  have string := cStr_target whole plain
  have modeValue : BitVec.ofNat 32 md.mode.toNat = md.mode := by simp
  have checked : (md.targetPath.isEmpty || Mode.isLnk md.mode) = true := by
    rcases target with empty | link
    · rw [empty]
      rfl
    · rw [link, Bool.or_true]
  have length : before.length + 1 + md.targetPath.length = data.length := by
    rw [whole, List.length_append, List.length_cons]
    omega
  have positive : 0 < (toText md.mode.toNat).length := List.length_pos_of_ne_nil (toText_ne_nil _)
  have ended : (data ++ ['\x00'])[data.length]? = some '\x00' := by simp
  have sizeValue : BitVec.ofInt 64 (md.size.toNat : Int) = md.size := by simp
  simp only [ofBinaryStr, mode, ofFailure, bind, Except.bind, size, atime, mtime, ctime, linkCount, blocks, separator,
    beq_self_eq_true, assertThat_true, string, modeValue, checked, length, positive, decide_true, ended, sizeValue, ofInt_optional,
    ofNat_optional]
  rfl

section plain
variable {config : MetadataConfig} {ndebug : Bool} {data : Str} {ptr next : Nat} (plain : '\x00' ∉ data)
include plain

theorem cStr_plain : Metadata.cStr data ptr = data.drop ptr := by
  rw [Metadata.cStr, List.takeWhile_eq_self_iff]
  intro c member
  have other : c ≠ '\x00' := fun same => plain (same ▸ List.mem_of_mem_drop member)
  simpa using other

theorem field_of_fieldAt {α : Type} {convert : Str → Except Failure (α × Nat)} {value : α}
    (read : fieldAt ndebug convert data ptr = .ok (value, next)) :
    field ndebug convert (data.drop ptr) = .ok (value, data.drop next) := by
  rw [fieldAt] at read
  obtain ⟨⟨⟩, separator, read⟩ := bind_eq_ok read
  obtain ⟨⟨found, taken⟩, converted, read⟩ := bind_eq_ok read
  obtain ⟨⟨⟩, _, read⟩ := bind_eq_ok read
  cases read
  rw [cStr_plain plain] at converted
  rw [field, List.head?_drop, separator, List.drop_drop, converted]
  simp only [bind, Except.bind, pure, Except.pure, List.drop_drop, Nat.add_assoc]

theorem optional_of_optionalAt {α : Type} {convert : Str → Except Failure (α × Nat)} {enabled : Bool} {absent value : α}
    (read : optionalAt enabled ndebug convert absent data ptr = .ok (value, next)) :
    optional enabled ndebug convert absent (data.drop ptr) = .ok (value, data.drop next) := by
  cases enabled with
  | false =>
    cases read
    rfl
  | true => exact field_of_fieldAt plain read

/-- On a text without NUL the pointer reads what `parse` reads. -/
theorem parse_of_ofBinaryStr {md : Metadata} (read : ofBinaryStr config ndebug data = .ok (md, ptr)) :
    parse config ndebug data = .ok md := by
  rw [ofBinaryStr, cStr_plain plain, List.drop_zero] at read
  obtain ⟨⟨mode, afterMode⟩, modeRead, read⟩ := bind_eq_ok read
  obtain ⟨⟨⟩, _, read⟩ := bind_eq_ok read
  obtain ⟨⟨size, afterSize⟩, sizeRead, read⟩ := bind_eq_ok read
  obtain ⟨⟨atime, afterAtime⟩, atimeRead, read⟩ := bind_eq_ok read
  obtain ⟨⟨mtime, afterMtime⟩, mtimeRead, read⟩ := bind_eq_ok read
  obtain ⟨⟨ctime, afterCtime⟩, ctimeRead, read⟩ := bind_eq_ok read
  obtain ⟨⟨linkCount, afterLinkCnt⟩, linkCntRead, read⟩ := bind_eq_ok read
  obtain ⟨⟨blocks, afterBlocks⟩, blocksRead, read⟩ := bind_eq_ok read
  obtain ⟨⟨⟩, separator, read⟩ := bind_eq_ok read
  obtain ⟨⟨⟩, checked, read⟩ := bind_eq_ok read
  obtain ⟨⟨⟩, _, read⟩ := bind_eq_ok read
  cases read
  rw [cStr_plain plain] at checked ⊢
  simp only [parse, modeRead, bind, Except.bind, field_of_fieldAt plain sizeRead, optional_of_optionalAt plain atimeRead,
    optional_of_optionalAt plain mtimeRead, optional_of_optionalAt plain ctimeRead, optional_of_optionalAt plain linkCntRead,
    optional_of_optionalAt plain blocksRead, List.head?_drop, separator, List.drop_drop, checked]
  rfl

end plain

/-- Whatever optional fields are enabled, the constructor reads back the metadata that was
written, with its assertions, and stops at the end of the text. -/
theorem metadata_text_round_trips (config : MetadataConfig) (ndebug : Bool) {md : Metadata} (small : md.size.toNat < 2 ^ 63)
    (target : md.targetPath = [] ∨ Mode.isLnk md.mode = true) (plain : '\x00' ∉ md.targetPath) :
    ∃ read, ofBinaryStr config ndebug (md.serialize config) = .ok (read, (md.serialize config).length) ∧
      read.mode = md.mode ∧ read.size = md.size ∧ read.targetPath = md.targetPath ∧
      (config.useAtime = true → read.atime = md.atime) ∧ (config.useMtime = true → read.mtime = md.mtime) ∧
      (config.useCtime = true → read.ctime = md.ctime) ∧ (config.useLinkCnt = true → read.linkCount = md.linkCount) ∧
      (config.useBlocks = true → read.blocks = md.blocks) := by
  refine ⟨kept config md, ofBinaryStr_serialize config ndebug small target plain, rfl, rfl, rfl, ?_, ?_, ?_, ?_, ?_⟩
  all_goals exact fun enabled => if_pos enabled

/-- A link before the epoch, with a separator in its target and a negative block count. -/
def oldLink : Metadata := ⟨-1, -2, BitVec.intMin 64, Mode.iflnk ||| 0o777, BitVec.allOnes 64, 5, BitVec.intMin 64, "/a|b".toList⟩

theorem metadata_text_round_trips_old_link :
    ∃ read, ofBinaryStr ⟨true, true, true, true, true⟩ false (oldLink.serialize ⟨true, true, true, true, true⟩) =
        .ok (read, (oldLink.serialize ⟨true, true, true, true, true⟩).length) ∧
      read.targetPath = "/a|b".toList ∧ read.blocks = BitVec.intMin 64 := by
  obtain ⟨read, done, _, _, target, _, _, _, _, blocks⟩ :=
    @metadata_text_round_trips ⟨true, true, true, true, true⟩ false oldLink (by decide) (.inr (by decide)) (by decide)
  exact ⟨read, done, target, blocks rfl⟩

/-! Merge operands. -/

section operand
variable (ndebug : Bool)

/-- The text behind the number of an operand is not part of it, whatever memory holds. -/
theorem increaseSizeOfSlice_params (size : Word) (append : Bool) (behind : Str) :
    MergeOperand.increaseSizeOfSlice ndebug (MergeOperand.increaseSize size append).serializeParams behind = .ok (size, append) := by
  have read : ∀ flag, stoul (Metadata.cStr (toText size.toNat ++ ',' :: flag :: behind) 0) =
      .ok (size.toNat, (toText size.toNat).length) := by
    intro flag
    have string := @cStr_append [] _ (',' :: flag :: behind) (nul_not_mem_toText size.toNat)
    refine (congrArg stoul string).trans (stoul_toText size.isLt fun c head => ?_)
    cases head
    decide
  have value : BitVec.ofNat 64 size.toNat = size := by simp
  cases append <;>
    simp [MergeOperand.serializeParams, MergeOperand.increaseSizeOfSlice, read, ofFailure, value, bind, Except.bind, pure, Except.pure]

/-- The operand in a serialised text, by the parsers that `FullMergeV2` chooses from its id. -/
def operandOf (behind serialized : Str) : Except Exn MergeOperand := do
  let parameters ← MergeOperand.getParams ndebug serialized
  if MergeOperand.getId serialized = 'i' then
    let (size, append) ← MergeOperand.increaseSizeOfSlice ndebug parameters behind
    return .increaseSize size append
  else if MergeOperand.getId serialized = 'd' then
    let size ← MergeOperand.parseDecreaseSize ndebug parameters
    return .decreaseSize size
  else if MergeOperand.getId serialized = 'c' then return .create parameters
  else .error .runtimeError

theorem operandOf_serialize (behind : Str) (operand : MergeOperand) :
    operandOf ndebug behind operand.serialize = .ok operand := by
  rw [operandOf, MergeLaws.getParams_serialize, MergeLaws.getId_serialize]
  cases operand with
  | increaseSize size append =>
    simp [MergeOperand.id, increaseSizeOfSlice_params, bind, Except.bind, pure, Except.pure]
  | decreaseSize size =>
    simp [MergeOperand.id, MergeLaws.parseDecreaseSize_params, bind, Except.bind, pure, Except.pure]
  | create metadata => simp [MergeOperand.id, MergeOperand.serializeParams, bind, Except.bind, pure, Except.pure]

end operand

/-- Every operand is read back from its text, in a build with assertions too, and no two
operands have the same text. -/
theorem merge_operand_round_trips (ndebug : Bool) :
    (∀ operand : MergeOperand, MergeOperand.getId operand.serialize = operand.id ∧
      MergeOperand.getParams ndebug operand.serialize = .ok operand.serializeParams ∧
      ∀ behind, operandOf ndebug behind operand.serialize = .ok operand) ∧
    Function.Injective MergeOperand.serialize := by
  refine ⟨fun operand => ⟨MergeLaws.getId_serialize operand, MergeLaws.getParams_serialize ndebug operand,
    fun behind => operandOf_serialize ndebug behind operand⟩, fun operand other same => ?_⟩
  have left := operandOf_serialize ndebug [] operand
  rw [same, operandOf_serialize] at left
  exact (Except.ok.inj left).symm

end GekkoFwd.Proofs.TextForms
