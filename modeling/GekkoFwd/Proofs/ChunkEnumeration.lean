import GekkoFwd.Proofs.WriteLimits

/-! When the client's loop over the chunk numbers of a transfer ends. Its bound is
formed from the last offset by signed alignment and an arithmetic shift. -/

namespace GekkoFwd.Proofs.ChunkEnumeration
open RpcProgram ClientOps ClientSpec WriteLimits

def chnkStart (transfer : Transfer) : Word := ChunkCalc.chnkIdForOffset transfer.offset chunkWord

def chnkEnd (transfer : Transfer) : Word := ChunkCalc.chnkIdForOffset (transfer.offset + transfer.size - 1) chunkWord

/-- The loop over the chunk numbers needs no more rounds than the size calls for. -/
def Enumerates (locate : Nat → Nat) (transfer : Transfer) : Prop :=
  WhileLoop.EndsWithin (fun state => decide (state.chnkId ≤ chnkEnd transfer))
    (ForwardSplit.body locate (chnkStart transfer) (chnkEnd transfer)) (ForwardSplit.initial (chnkStart transfer))
    (transfer.size.toNat / chunksize + 2)

section Loop
variable {locate : Nat → Nat} {offset size : Word} {transfer : Transfer}

theorem chnkId_iterate (first last : Word) (rounds : Nat) :
    ((ForwardSplit.body locate first last)^[rounds] (ForwardSplit.initial first)).chnkId = first + .ofNat 64 rounds := by
  induction rounds with
  | zero => exact (BitVec.add_zero _).symm
  | succ rounds ih =>
    rw [Function.iterate_succ_apply', BitVec.ofNat_add, ← BitVec.add_assoc, ← ih]
    rfl

theorem toNat_last_offset (offset size : Word) : (offset + size - 1).toNat = (offset.toNat + size.toNat + (2 ^ 64 - 1)) % 2 ^ 64 := by
  rw [BitVec.toNat_sub, BitVec.toNat_add, show (1 : Word).toNat = 1 from rfl]
  omega

/-- The chunks of a range in the signed numbers are few. -/
theorem enumerates_of_small (start : transfer.offset.toNat < 2 ^ 63) (small : (transfer.offset + transfer.size - 1).toNat < 2 ^ 63) :
    Enumerates locate transfer := by
  have first := ChunkCalc.toNat_chnkIdForOffset start
  have last := ChunkCalc.toNat_chnkIdForOffset small
  rw [← chunkWord, ← chnkStart] at first
  rw [← chunkWord, ← chnkEnd] at last
  have value := toNat_last_offset transfer.offset transfer.size
  have size := transfer.size.isLt
  rw [chunksize] at first last
  refine ⟨transfer.size.toNat / chunksize + 2, Nat.le_refl _, decide_eq_false ?_⟩
  rw [chnkId_iterate, BitVec.le_def, BitVec.toNat_add, BitVec.toNat_ofNat, first, last, chunksize]
  omega

/-- Behind the signed numbers the last chunk is further away than any size. -/
theorem not_enumerates_of_large (start : transfer.offset.toNat < 2 ^ 63) (large : 2 ^ 63 ≤ (transfer.offset + transfer.size - 1).toNat) :
    ¬Enumerates locate transfer := by
  rintro ⟨rounds, few, stop⟩
  have first := ChunkCalc.toNat_chnkIdForOffset start
  have last := ChunkCalc.le_toNat_chnkIdForOffset large
  have size := transfer.size.isLt
  rw [← chunkWord, ← chnkStart] at first
  rw [← chunkWord, ← chnkEnd] at last
  refine of_decide_eq_false stop ?_
  rw [chunksize] at first few
  rw [chnkId_iterate, BitVec.le_def, BitVec.toNat_add, BitVec.toNat_ofNat, first]
  omega

theorem enumerates_iff (start : transfer.offset.toNat < 2 ^ 63) :
    Enumerates locate transfer ↔ (transfer.offset + transfer.size - 1).toNat < 2 ^ 63 := by
  constructor
  · intro ends
    by_contra large
    exact not_enumerates_of_large start (Nat.le_of_not_lt large) ends
  · exact enumerates_of_small start

theorem Enumerates.inputs {deployment : Deployment} {client : Client deployment} {path : Str}
    (ends : Enumerates (client.locateData path) transfer) : ∃ requests, transfer.inputs client path = some requests := by
  obtain ⟨final, ran⟩ := WhileLoop.EndsWithin.run ends
  exact ⟨_, congrArg (Option.map _) ran⟩

end Loop

section Writes
variable {deployment : Deployment} {client : Client deployment} {path : Str} {offset : Word} {pools : Nat → IoPool} {cluster : Cluster}

/-- With assertions a write of nothing ends the process, after its size was recorded. -/
theorem survives_iff (asserts : deployment.ndebug = false) {data : List Byte} (start : offset.toNat < 2 ^ 63)
    (small : (offset + .ofNat 64 data.length - 1).toNat < 2 ^ 63) :
    ((Cluster.server deployment pools).exec (gkfsPwrite client path false data offset) cluster).1 ≠ none ↔
      cluster.down (deployment.metadataHost path) = true ∨ 0 < (BitVec.ofNat 64 data.length).toNat := by
  have sent : ∀ between : Cluster, ((Cluster.server deployment pools).exec
      (forwardWrite client path data false offset (.ofNat 64 data.length) (.ofNat 64 data.length + offset)) between).1 ≠ none ↔
        0 < (BitVec.ofNat 64 data.length).toNat := by
    intro between
    rw [forwardWrite]
    by_cases positive : (0 : Word) < .ofNat 64 data.length
    · have ends : Enumerates (client.locateData path)
          (.forwardWrite false offset (.ofNat 64 data.length) (.ofNat 64 data.length + offset)) := by
        apply enumerates_of_small
        · rwa [Transfer.offset_forwardWrite]
        · rwa [Transfer.offset_forwardWrite]
      obtain ⟨requests, inputs⟩ := ends.inputs
      rw [decide_eq_true positive, assertClient_true, inputs]
      exact iff_of_true (fun aborted => by cases aborted) (BitVec.lt_def.mp positive)
    · rw [decide_eq_false positive, assertClient, asserts]
      exact iff_of_false (fun survived => survived rfl) fun more => positive (BitVec.lt_def.mpr more)
  cases up : cluster.down (deployment.metadataHost path) with
  | true =>
    rw [exec_gkfsPwrite_down client path false data offset up]
    exact iff_of_true (fun aborted => by cases aborted) (.inl rfl)
  | false =>
    rw [or_iff_right Bool.false_ne_true, gkfsPwrite, RpcProgram.Program.bind_eq, RpcProgram.Server.exec_bind,
      exec_forwardUpdateMetadentrySize client path _ _ _ up]
    exact sent _

/-- A write of nothing records its offset as the size of a shorter file. -/
theorem unchanged_iff {md : Metadata} (read : entry deployment cluster path = .ok md) (recorded : md.size.toNat < 2 ^ 63) :
    Records deployment ((Cluster.server deployment pools).exec (gkfsPwrite client path false [] offset) cluster).2 path md.size.toNat ↔
      cluster.down (deployment.metadataHost path) = true ∨ offset.toNat ≤ md.size.toNat := by
  cases up : cluster.down (deployment.metadataHost path) with
  | true =>
    rw [exec_gkfsPwrite_down client path false [] offset up]
    exact iff_of_true ⟨md, read, rfl⟩ (.inl rfl)
  | false =>
    have value : last [] offset = offset := BitVec.zero_add offset
    rw [or_iff_right Bool.false_ne_true, records_gkfsPwrite up read, value]
    omega

end Writes

/-- The loop over the chunks of a read or write keeps to its bound exactly when the last
byte of the range, counted on 64-bit words, lies in the signed numbers. The assertion
before it holds exactly for a size that is not zero, and a write of nothing leaves the
recorded size exactly when it is not behind the end; a write whose metadata host does not
answer gets to neither. -/
theorem enumeration_ends_iff {deployment : Deployment} (client : Client deployment) (path : Str) {offset : Word}
    (start : offset.toNat < 2 ^ 63) :
    (∀ (count : Word) (transfer : Transfer), transfer = .forwardRead offset count ∨
        transfer = .forwardWrite false offset count (count + offset) →
      (Enumerates (client.locateData path) transfer ↔ (offset + count - 1).toNat < 2 ^ 63)) ∧
    (∀ (pools : Nat → IoPool) (cluster : Cluster) (data : List Byte), deployment.ndebug = false →
      (offset + .ofNat 64 data.length - 1).toNat < 2 ^ 63 →
      (((Cluster.server deployment pools).exec (gkfsPwrite client path false data offset) cluster).1 ≠ none ↔
        cluster.down (deployment.metadataHost path) = true ∨ 0 < (BitVec.ofNat 64 data.length).toNat)) ∧
    ∀ (pools : Nat → IoPool) (cluster : Cluster) (md : Metadata), entry deployment cluster path = .ok md → md.size.toNat < 2 ^ 63 →
      (Records deployment ((Cluster.server deployment pools).exec (gkfsPwrite client path false [] offset) cluster).2 path
        md.size.toNat ↔ cluster.down (deployment.metadataHost path) = true ∨ offset.toNat ≤ md.size.toNat) := by
  refine ⟨fun count transfer kind => ?_, fun pools cluster data asserts small => survives_iff asserts start small,
    fun pools cluster md read recorded => unchanged_iff read recorded⟩
  rcases kind with rfl | rfl
  · exact enumerates_iff start
  · rw [enumerates_iff (by rwa [Transfer.offset_forwardWrite]), Transfer.offset_forwardWrite]
    rfl

theorem enumeration_ends_iff_unaligned : (500000 : Word).toNat < 2 ^ 63 ∧
    Enumerates ((Client.first (.pair List.length)).locateData "/file".toList) (.forwardRead 500000 600000) := by
  have start : (500000 : Word).toNat < 2 ^ 63 := by decide
  refine ⟨start, ((enumeration_ends_iff (.first (.pair List.length)) "/file".toList start).1 600000 _ (.inl rfl)).mpr ?_⟩
  decide

/-- Two hosts, in a build with assertions. -/
def debugPair : Deployment := { Deployment.pair List.length with ndebug := false }

/-- A read of nothing at the beginning of a file never ends. A write of nothing there
ends a process with assertions, and one behind the end makes the file longer. -/
theorem empty_transfers_misbehave :
    (¬Enumerates ((Client.first (.pair List.length)).locateData "/file".toList) (.forwardRead 0 0) ∧
      Transfer.inputs (.forwardRead 0 0) (Client.first (.pair List.length)) "/file".toList = none) ∧
    ((Cluster.server debugPair fun _ => default).exec (gkfsPwrite (.first debugPair) "/file".toList false [] 1) .fresh).1 = none ∧
    Records (.pair List.length) withFile "/file".toList 0 ∧
    Records (.pair List.length) ((Cluster.server (.pair List.length) fun _ => default).exec
      (gkfsPwrite (.first (.pair List.length)) "/file".toList false [] 5) withFile).2 "/file".toList 5 := by
  refine ⟨⟨?_, ?_⟩, rfl, ⟨_, entry_withFile, rfl⟩, (records_gkfsPwrite rfl entry_withFile 5).mpr (by decide)⟩
  · rw [enumerates_iff (by decide)]
    decide
  · refine Option.map_eq_none_iff.mpr (WhileLoop.run_diverges fun round => decide_eq_true ?_)
    rw [show ChunkCalc.chnkIdForOffset (Transfer.offset (.forwardRead 0 0) + Transfer.size (.forwardRead 0 0) - 1) chunkWord =
      BitVec.allOnes 64 by decide]
    exact BitVec.le_def.mpr (Nat.le_of_lt_succ (BitVec.isLt _))

end GekkoFwd.Proofs.ChunkEnumeration
