import GekkoFwd.Lib.Words
import GekkoFwd.Proofs.ClientSpec

/-! The recorded size after a write at any offset. The end of the range is formed on
64-bit words, kept as unsigned text and read back as a signed number. -/

namespace GekkoFwd.Proofs.WriteLimits
open RpcProgram ClientOps ClientSpec MergeLaws DecText

section Text
variable {ndebug : Bool} {md : Metadata} {text : Str} {cell : Cell}

theorem parsed_of_parse (parsed : Metadata.parse .default ndebug text = .ok md) : Parsed ndebug md := by
  simp only [Metadata.parse, Metadata.optional, MetadataConfig.default, Bool.false_eq_true, if_false, pure_bind] at parsed
  obtain ⟨mode, _, parsed⟩ := bind_eq_ok parsed
  obtain ⟨size, _, parsed⟩ := bind_eq_ok parsed
  obtain ⟨_, _, parsed⟩ := bind_eq_ok parsed
  obtain ⟨_, checked, parsed⟩ := bind_eq_ok parsed
  cases parsed
  refine ⟨⟨rfl, rfl, rfl, rfl, rfl⟩, ?_⟩
  by_contra failed
  rw [assertThat, if_neg failed] at checked
  cases checked

/-- What a cell stands for when a read of it succeeds. -/
theorem folded_of_read (found : cell.value .default ndebug = .ok text) (parsed : Metadata.parse .default ndebug text = .ok md) :
    (cell.base ≠ none ∨ cell.operands ≠ []) ∧ folded ndebug cell = .ok md := by
  obtain ⟨base, operands⟩ := cell
  cases operands with
  | nil =>
    cases base with
    | none => cases found
    | some value =>
      cases found
      refine ⟨.inl (Option.some_ne_none _), ?_⟩
      simp [folded, MetadataMergeOperator.mergeStart, parsed, bind, Except.bind, pure, Except.pure]
  | cons first operands =>
    refine ⟨.inr (List.cons_ne_nil _ _), ?_⟩
    rw [value_of_pending (List.cons_ne_nil _ _)] at found
    obtain ⟨value, merged, written⟩ := bind_eq_ok found
    cases written
    have fields : Parsed ndebug value := by
      obtain ⟨start, _, rest⟩ := bind_eq_ok merged
      obtain ⟨before, read, rest⟩ := bind_eq_ok rest
      obtain ⟨size, _, same⟩ := bind_eq_ok rest
      cases same
      exact ⟨(parsed_of_parse read).unwritten, (parsed_of_parse read).target⟩
    rw [parse_serialize_limit fields] at parsed
    split at parsed
    next =>
      cases parsed
      exact merged
    next => cases parsed

end Text

section Announce
variable {deployment : Deployment} {cluster after : Cluster} {path : Str} {md : Metadata}

/-- The text of the entry once its host has been told of a range that ends at `last`. -/
theorem get_increaseSize (read : entry deployment cluster path = .ok md) {last : Word}
    (announced : after.mdb (deployment.metadataHost path) =
      (cluster.mdb (deployment.metadataHost path)).increaseSize path last false) :
    (after.mdb (deployment.metadataHost path)).get .default deployment.ndebug path =
      .ok ({ md with size := if last < md.size then md.size else last }.serialize .default) := by
  obtain ⟨text, found, parsed⟩ := bind_eq_ok read
  obtain ⟨started, stands⟩ := folded_of_read found parsed
  have grown : (after.mdb (deployment.metadataHost path)).cell path =
      ((cluster.mdb (deployment.metadataHost path)).cell path).merge (MergeOperand.increaseSize last false).serialize := by
    rw [announced, MetadataDb.increaseSize]
    exact MetadataDb.cell_of_lookup (by rw [MetadataDb.lookup_merge, if_pos rfl])
  rw [MetadataDb.get, grown, value_of_pending (by simp [Cell.merge]), folded_merge started, stands]
  simp only [bind, Except.bind, applyOperand_serialize, effect, Bool.false_eq_true, if_false, pure, Except.pure]

theorem entry_increaseSize (read : entry deployment cluster path = .ok md) {last : Word}
    (announced : after.mdb (deployment.metadataHost path) =
      (cluster.mdb (deployment.metadataHost path)).increaseSize path last false) :
    ∃ size : Word, size.toNat = max md.size.toNat last.toNat ∧
      entry deployment after path = if size.toNat < 2 ^ 63 then .ok { md with size } else .error .outOfRange := by
  obtain ⟨_, _, parsed⟩ := bind_eq_ok read
  have fields := parsed_of_parse parsed
  refine ⟨if last < md.size then md.size else last, Words.toNat_larger md.size last, ?_⟩
  rw [entry, get_increaseSize read announced]
  simp only [bind, Except.bind]
  exact @parse_serialize_limit _ { md with size := if last < md.size then md.size else last } ⟨fields.unwritten, fields.target⟩

end Announce

section Write
variable {deployment : Deployment} {pools : Nat → IoPool} {client : Client deployment} {cluster : Cluster} {path : Str}
  {data : List Byte} {offset : Word} {md : Metadata}

/-- A read of the entry succeeds and gives this size. -/
def Records (deployment : Deployment) (cluster : Cluster) (path : Str) (size : Int) : Prop :=
  ∃ md, entry deployment cluster path = .ok md ∧ (md.size.toNat : Int) = size

/-- An error that leaves the size alone, or the size as the integers give it. -/
def Exact (deployment : Deployment) (path : Str) (old count : Nat) (offset : Word) (ran : Option (SysResult Word) × Cluster) : Prop :=
  ((∃ errno, ran.1 = some (.error errno)) ∧ Records deployment ran.2 path old) ∨
    (0 ≤ offset.toInt ∧ Records deployment ran.2 path (max old (offset.toInt + count)))

/-- The end of the range as the daemon computes it. -/
def last (data : List Byte) (offset : Word) : Word := .ofNat 64 data.length + offset

theorem entry_gkfsPwrite (up : cluster.down (deployment.metadataHost path) = false) (read : entry deployment cluster path = .ok md) :
    ∃ size : Word, size.toNat = max md.size.toNat (last data offset).toNat ∧
      entry deployment ((Cluster.server deployment pools).exec (gkfsPwrite client path false data offset) cluster).2 path =
        if size.toNat < 2 ^ 63 then .ok { md with size } else .error .outOfRange := by
  refine entry_increaseSize read ?_
  rw [mdb_gkfsPwrite _ _ _ _ _ up, Function.update_self, last]

/-- A size that can be read after a write is the larger of the two. -/
theorem records_gkfsPwrite (up : cluster.down (deployment.metadataHost path) = false) (read : entry deployment cluster path = .ok md)
    (size : Int) :
    Records deployment ((Cluster.server deployment pools).exec (gkfsPwrite client path false data offset) cluster).2 path size ↔
      size < 2 ^ 63 ∧ size = max md.size.toNat (last data offset).toNat := by
  obtain ⟨grown, value, found⟩ := @entry_gkfsPwrite deployment pools client cluster path data offset md up read
  rw [Records, found]
  constructor
  · rintro ⟨after, some, rfl⟩
    split at some
    next fits =>
      cases some
      exact ⟨by exact_mod_cast fits, by rw [value]⟩
    next => cases some
  · rintro ⟨fits, rfl⟩
    rw [← value] at fits ⊢
    exact ⟨_, if_pos (by exact_mod_cast fits), rfl⟩

theorem toNat_last (data : List Byte) (offset : Word) :
    ((last data offset).toNat : Int) = (offset.toInt + data.length) % 2 ^ 64 := by
  rw [last, BitVec.toNat_add, BitVec.toNat_ofNat, BitVec.toInt_eq_toNat_cond]
  split <;> omega

/-- When the range wraps around zero, the chunk loop has nothing to do or never ends. -/
theorem inputs_wrapped (client : Client deployment) (path : Str) (negative : offset.toInt < 0)
    (wrapped : (last data offset).toNat < 2 ^ 63) :
    Transfer.inputs (.forwardWrite false offset (.ofNat 64 data.length) (last data offset)) client path = none ∨
      Transfer.inputs (.forwardWrite false offset (.ofNat 64 data.length) (last data offset)) client path = some [] := by
  have from_offset : Transfer.offset (.forwardWrite false offset (.ofNat 64 data.length) (last data offset)) = offset :=
    Transfer.offset_forwardWrite false offset _
  have ends : offset + .ofNat 64 data.length - 1 = last data offset - 1 := by rw [last, BitVec.add_comm]
  simp only [Transfer.inputs, from_offset, Transfer.size, ForwardSplit.inputs, ends, ForwardSplit.collect]
  by_cases zero : last data offset = 0
  · refine .inl (Option.map_eq_none_iff.mpr (WhileLoop.run_diverges fun round => decide_eq_true ?_))
    rw [zero, show ChunkCalc.chnkIdForOffset (0 - 1) chunkWord = BitVec.allOnes 64 by decide]
    exact BitVec.le_def.mpr (Nat.le_of_lt_succ (BitVec.isLt _))
  · have first : 2 ^ 63 ≤ (ChunkCalc.chnkIdForOffset offset chunkWord).toNat := by
      have sign := ChunkCalc.msb_chnkIdForOffset offset
      rw [BitVec.msb_eq_decide, BitVec.msb_eq_decide, decide_eq_decide] at sign
      refine sign.mpr ?_
      rw [BitVec.toInt_eq_toNat_cond] at negative
      omega
    have previous : (last data offset - 1).toNat = (last data offset).toNat - 1 := by
      refine BitVec.toNat_sub_of_le (BitVec.le_def.mpr (Nat.pos_of_ne_zero fun same => zero ?_))
      exact BitVec.eq_of_toNat_eq same
    have final : (ChunkCalc.chnkIdForOffset (last data offset - 1) chunkWord).toNat < 2 ^ 63 := by
      rw [chunkWord, ChunkCalc.toNat_chnkIdForOffset (by omega), previous]
      exact Nat.lt_of_le_of_lt (Nat.div_le_self _ _) (by omega)
    refine .inr ?_
    rw [WhileLoop.run_stop]
    · rfl
    · exact decide_eq_false fun ordered => Nat.not_le.mpr final (Nat.le_trans first (BitVec.le_def.mp ordered))

theorem ran_wrapped (client : Client deployment) (path : Str) (up : cluster.down (deployment.metadataHost path) = false)
    (some : data ≠ []) (addressable : data.length < 2 ^ 63)
    (negative : offset.toInt < 0) (wrapped : (last data offset).toNat < 2 ^ 63) (errno : Int) :
    ((Cluster.server deployment pools).exec (gkfsPwrite client path false data offset) cluster).1 ≠ Option.some (.error errno) := by
  have positive : 0 < BitVec.ofNat 64 data.length := by
    rw [BitVec.lt_def, Words.toNat_ofNat (by omega)]
    exact List.length_pos_iff.mpr some
  have written : ∀ between : Cluster, ((Cluster.server deployment pools).exec
      (forwardWrite client path data false offset (.ofNat 64 data.length) (last data offset)) between).1 ≠ Option.some (.error errno) := by
    intro between
    rw [forwardWrite, decide_eq_true positive, assertClient_true]
    rcases inputs_wrapped client path negative wrapped with endless | nothing
    · rw [endless]
      exact fun failed => by cases failed
    · rw [nothing]
      exact fun failed => by cases failed
  rw [gkfsPwrite, Program.bind_eq, Server.exec_bind, exec_forwardUpdateMetadentrySize client path _ _ _ up]
  exact written _

/-- A write changes the recorded size as the integers do exactly when its range lies
in the signed numbers, or when nobody answers. The buffer is an object in memory. -/
theorem write_exact_iff (read : entry deployment cluster path = .ok md) (recorded : md.size.toNat < 2 ^ 63) (some : data ≠ [])
    (addressable : data.length < 2 ^ 63) :
    Exact deployment path md.size.toNat data.length offset
        ((Cluster.server deployment pools).exec (gkfsPwrite client path false data offset) cluster) ↔
      cluster.down (deployment.metadataHost path) = true ∨ 0 ≤ offset.toInt ∧ offset.toInt + data.length < 2 ^ 63 := by
  cases up : cluster.down (deployment.metadataHost path) with
  | true =>
    rw [exec_gkfsPwrite_down client path false data offset up]
    exact iff_of_true (.inl ⟨⟨_, rfl⟩, md, read, rfl⟩) (.inl rfl)
  | false =>
  rw [or_iff_right Bool.false_ne_true]
  have value := toNat_last data offset
  have range := @BitVec.toInt_lt 64 offset
  have least := @BitVec.le_toInt 64 offset
  have count := List.length_pos_iff.mpr some
  rw [Exact, records_gkfsPwrite up read, records_gkfsPwrite up read]
  constructor
  · rintro (⟨⟨errno, failed⟩, fits, same⟩ | ⟨positive, fits, same⟩)
    · have wrapped : (last data offset).toNat < 2 ^ 63 := by omega
      by_cases negative : offset.toInt < 0
      · exact absurd failed (ran_wrapped client path up some addressable negative wrapped errno)
      · omega
    · omega
  · rintro ⟨positive, fits⟩
    right
    omega

end Write

/-- The cluster after the creation of one file. -/
def withFile : Cluster :=
  ((Cluster.server (.pair List.length) fun _ => default).exec (gkfsCreate (.first (.pair List.length)) "/file".toList 0o644) .fresh).2

theorem entry_withFile : entry (.pair List.length) withFile "/file".toList = .ok (Metadata.ofMode (Mode.ifreg ||| 0o644)) := by
  decide +kernel

/-- A byte inside the signed range. -/
theorem write_exact_iff_file : Exact (.pair List.length) "/file".toList 0 1 7
    ((Cluster.server (.pair List.length) fun _ => default).exec
      (gkfsPwrite (.first (.pair List.length)) "/file".toList false [0] 7) withFile) :=
  (write_exact_iff entry_withFile (by decide) (List.cons_ne_nil _ _) (by decide)).mpr (.inr ⟨by decide, by decide⟩)

/-- A byte at the largest offset: the entry cannot be read any more. -/
theorem last_byte_breaks_entry :
    entry (.pair List.length) withFile "/file".toList = .ok (Metadata.ofMode (Mode.ifreg ||| 0o644)) ∧
      ¬Exact (.pair List.length) "/file".toList 0 1 0x7fffffffffffffff
        ((Cluster.server (.pair List.length) fun _ => default).exec
          (gkfsPwrite (.first (.pair List.length)) "/file".toList false [0] 0x7fffffffffffffff) withFile) := by
  refine ⟨entry_withFile, ?_⟩
  rintro (⟨_, records⟩ | ⟨_, records⟩)
  · have limit := ((records_gkfsPwrite rfl entry_withFile _).mp records).2
    revert limit
    decide
  · have limit := ((records_gkfsPwrite rfl entry_withFile _).mp records).1
    revert limit
    decide

end GekkoFwd.Proofs.WriteLimits
