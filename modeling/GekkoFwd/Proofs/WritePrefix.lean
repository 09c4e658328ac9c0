import GekkoFwd.Proofs.ReadAfterWrite

/-! When the count that a write returns is the length of a stored prefix of its buffer. -/

namespace GekkoFwd.Proofs.WritePrefix
open ChunkPartition IoPartition StorageSpec DataPath WriteOutcome ReadAfterWrite ChunkStorage

variable {deployment : Deployment} {path : Str}

/-- A write whose buffer has fewer chunks than there are chunk numbers. -/
structure Attempt (deployment : Deployment) extends Write deployment where
  buffer : data.length ≤ (2 ^ 32 - 1) * chunksize

namespace Attempt

/-- The local call for the chunk of a byte stored that byte. -/
def reached (path : Str) (attempt : Attempt deployment) (i : Nat) : Prop :=
  i < attempt.range.split.origin ((attempt.offset + i) / chunksize) + attempt.takes path ((attempt.offset + i) / chunksize)

variable (attempt : Attempt deployment)

theorem last_lt : attempt.range.split.last < attempt.range.split.first + 2 ^ 32 := by
  have ordered := attempt.range.split.first_le_last
  have least := ((attempt.range.split.inside_iff _).mp ⟨Nat.le_refl _, ordered⟩).1
  have most := attempt.range.split.last_bounds.1
  have buffer := attempt.buffer
  have size : attempt.range.size = attempt.data.length := rfl
  simp only [IoRange.split_start, IoRange.split_block, IoRange.split_length, chunksize] at least most buffer
  omega

theorem eq_of_mod_eq {c d : Nat} (block : c ∈ attempt.range.split.blocks) (block' : d ∈ attempt.range.split.blocks)
    (same : c % 2 ^ 32 = d % 2 ^ 32) : c = d := by
  have bound := attempt.last_lt
  rw [attempt.range.split.mem_blocks] at block block'
  omega

end Attempt

/-- The file of a chunk, in the store that holds it. -/
def chunkAt (deployment : Deployment) (cluster : Cluster) (path : Str) (c : Nat) : Option (List Byte) :=
  stored (cluster.storage (deployment.chunkBackend path c)) (dirName path) (c % 2 ^ 32)

section Requests
variable {attempt : Attempt deployment} {targets : List Nat} {request : Nat → DataIn} {final : Nat → SrvSplit.State} {cluster : Cluster}

/-- The chunks on the given hosts have got what arrived, the others are as before. -/
def Arrived (path : Str) (attempt : Attempt deployment) (hosts : List Nat) (before after : Cluster) : Prop :=
  ∀ c ∈ attempt.range.split.blocks, chunkAt deployment after path c = if attempt.client.locateData path c ∈ hosts
    then some (written (chunkAt deployment before path c) (attempt.arrived path c) (attempt.range.split.pos c))
    else chunkAt deployment before path c

theorem handle_writeData (file : Storable path) (dispatch : Dispatch attempt.client path attempt.range targets request final)
    {target : Nat} (member : target ∈ targets) (healthy : Healthy cluster) :
    ∃ after, (Cluster.server deployment attempt.pools).handle target (.writeData (request target) attempt.data) cluster =
        (some (writeAnswer path attempt.toWrite target), after) ∧ Healthy after ∧ Arrived path attempt [target] cluster after := by
  have distinct : ((mine path attempt.toWrite target).map (· % 2 ^ 32)).Nodup := by
    refine List.Nodup.map_on (fun c own d own' same => ?_) (owned_nodup _ _ _)
    exact attempt.eq_of_mod_eq (mem_mine.mp own).1 (mem_mine.mp own').1 same
  obtain ⟨store, answered, kept, changed⟩ := rpcSrvWrite_landed (attempt.pools target) file rfl distinct
    (dispatch.addressed target).announces (dispatch.addressed target).path (dispatch.runs target member)
    (dispatch.tasks target member) (healthy.stores (deployment.backend target))
  refine ⟨cluster.setStore (deployment.backend target) store, ?_, healthy.setStore kept, fun c block => ?_⟩
  · have own : ∀ c ∈ mine path attempt.toWrite target,
        eventual ((attempt.pools target).pwrite (.ofNat 64 c)) (slice attempt.range attempt.data c) = attempt.value path c := by
      intro c own
      rw [Write.value, if_pos file.short, Write.outcome, (mem_mine.mp own).2]
    refine Cluster.handle_of_some (healthy.up target) ?_
    simp only [Cluster.serve, answered, writeAnswer, ← List.map_congr_left own]
    rfl
  · rw [chunkAt, Cluster.storage_setStore]
    by_cases owner : attempt.client.locateData path c = target
    · have here : deployment.chunkBackend path c = deployment.backend target := by rw [← owner, attempt.client.backend_locateData]
      rw [if_pos (List.mem_singleton.mpr owner), here, Function.update_self, changed.reached c (mem_mine.mpr ⟨block, owner⟩), chunkAt, here,
        Write.arrived, Write.outcome, owner]
    · rw [if_neg (mt List.mem_singleton.mp owner), chunkAt]
      -- forwarders share a backend, so the store may be the same while the chunk is not
      by_cases here : deployment.chunkBackend path c = deployment.backend target
      · rw [here, Function.update_self]
        refine changed.others _ _ fun _ member => ?_
        obtain ⟨d, own, same⟩ := List.mem_map.mp member
        rw [attempt.eq_of_mod_eq (mem_mine.mp own).1 block same] at own
        exact owner (mem_mine.mp own).2
      · rw [Function.update_of_ne here]

theorem handleAll_writeData (file : Storable path) (dispatch : Dispatch attempt.client path attempt.range targets request final)
    (hosts : List Nat) (among : hosts ⊆ targets) (distinct : hosts.Nodup) (healthy : Healthy cluster) :
    ∃ after, (Cluster.server deployment attempt.pools).handleAll
          (hosts.map fun target => (target, Request.writeData (request target) attempt.data)) cluster =
        (hosts.map fun target => some (writeAnswer path attempt.toWrite target), after) ∧ Arrived path attempt hosts cluster after := by
  induction hosts generalizing cluster with
  | nil => exact ⟨cluster, rfl, fun _ _ => rfl⟩
  | cons target hosts ih =>
    obtain ⟨absent, distinct⟩ := List.nodup_cons.mp distinct
    obtain ⟨between, answered, kept, first⟩ := handle_writeData file dispatch (among List.mem_cons_self) healthy
    obtain ⟨after, rest, others⟩ := ih (fun other member => among (List.mem_cons_of_mem _ member)) distinct kept
    refine ⟨after, by simp only [List.map_cons, RpcProgram.Server.handleAll, answered, rest], fun c block => ?_⟩
    rw [others c block, first c block]
    by_cases owner : attempt.client.locateData path c = target
    · simp [owner, absent]
    · simp [owner]

end Requests

section Calls
variable {cluster : Cluster} (attempt : Attempt deployment)

theorem exec_attempt (file : Storable path) (healthy : Healthy cluster) :
    ∃ result after, attempt.run path cluster = (some result, after) ∧
      (¬attempt.Fails path → result = .ok (.ofNat 64 (attempt.count path))) ∧
      (attempt.Fails path → ∃ errno, result = .error errno) ∧
      ∀ c ∈ attempt.range.split.blocks, chunkAt deployment after path c =
        some (written (chunkAt deployment cluster path c) (attempt.arrived path c) (attempt.range.split.pos c)) := by
  obtain ⟨targets, request, final, dispatch⟩ := exists_dispatch attempt.client path attempt.range
  obtain ⟨after, ran, arrived⟩ := handleAll_writeData file dispatch targets (List.Subset.refl _) dispatch.distinct
    (healthy.announce attempt.client path attempt.range attempt.appendFlag)
  have posted := @exec_gkfsPwrite_eq deployment attempt.client path attempt.range targets request final attempt.data attempt.pools cluster
    healthy.up dispatch rfl attempt.appendFlag
  rw [ran] at posted
  refine ⟨_, after, posted, collectSizes_stored dispatch, collectSizes_fails dispatch, fun c block => ?_⟩
  rw [arrived c block, if_pos ((dispatch.mem_targets _).mpr ⟨c, attempt.range.split.mem_blocks.mp block, rfl⟩)]
  rfl

/-- The bytes of the range afterwards: new where a local call stored them, as before elsewhere. -/
theorem readAt_attempt {after : Cluster} (arrived : ∀ c ∈ attempt.range.split.blocks, chunkAt deployment after path c =
      some (written (chunkAt deployment cluster path c) (attempt.arrived path c) (attempt.range.split.pos c)))
    {i : Nat} (inside : i < attempt.data.length) :
    (attempt.reached path i → readAt deployment after path (attempt.offset + i) = attempt.data[i]?) ∧
      (¬attempt.reached path i →
        readAt deployment after path (attempt.offset + i) = readAt deployment cluster path (attempt.offset + i)) := by
  have piece := attempt.range.split.mem_piece_origin ((attempt.offset + i) / chunksize) i
  have place := attempt.range.split.pos_add_of_mem_piece (show (attempt.range.split.start + i) / attempt.range.split.block = _ from rfl)
  simp only [IoRange.split_start, IoRange.split_block, IoRange.split_length] at piece place
  have offset : attempt.range.offset = attempt.offset := rfl
  rw [offset] at piece place
  obtain ⟨least, most⟩ := piece.mpr ⟨rfl, inside⟩
  have block := attempt.range.split.mem_blocks.mpr
    (inside_of_mem (show attempt.range.offset ≤ attempt.offset + i from Nat.le_add_right _ _) (Nat.add_lt_add_left inside _))
  have length := @Write.length_arrived _ path attempt.toWrite _ block
  have after_eq : readAt deployment after path (attempt.offset + i) =
      (written (chunkAt deployment cluster path ((attempt.offset + i) / chunksize))
      (attempt.arrived path ((attempt.offset + i) / chunksize)) (attempt.range.split.pos ((attempt.offset + i) / chunksize)))[
        (attempt.offset + i) % chunksize]? := by
    rw [readAt_eq, ← chunkAt, arrived _ block, Option.bind_some]
  rw [after_eq, written, ByteFile.getElem?_pwrite_of_le (by omega), Attempt.reached]
  constructor
  · intro reached
    rw [if_pos (by omega), ← place, Nat.add_sub_cancel_left, Write.arrived, getElem?_landed (by rw [← Write.arrived]; omega),
      getElem?_slice (by omega), Nat.add_sub_cancel' least]
  · intro missed
    -- the stored part is a prefix of the piece, so nothing was written from here on
    rw [if_neg (by omega), readAt_eq, ← chunkAt]
    cases chunkAt deployment cluster path ((attempt.offset + i) / chunksize) <;> rfl

/-- A count that comes back is no larger than the buffer, and so many bytes of its front are stored. -/
def PrefixStored (path : Str) (ran : Option (SysResult Word) × Cluster) : Prop :=
  ∀ count after, ran = (some (.ok count), after) → count.toNat ≤ attempt.data.length ∧
    ∀ i < count.toNat, readAt deployment after path (attempt.offset + i) = attempt.data[i]?

/-- The count that a write returns is a stored prefix exactly when a local call failed, or
every byte of the prefix was stored by the local call for its chunk or had been there. -/
theorem write_prefix_iff (file : IsFilePath path) (healthy : Healthy cluster) :
    PrefixStored attempt path (attempt.run path cluster) ↔ attempt.Fails path ∨
      ∀ i < attempt.count path, attempt.reached path i ∨ readAt deployment cluster path (attempt.offset + i) = attempt.data[i]? := by
  by_cases long : LocalFs.nameMax < (dirName path).length
  · have failed := @exec_gkfsPwrite_long deployment path attempt.range attempt.data attempt.pools cluster attempt.client file long rfl
      attempt.appendFlag healthy
    refine iff_of_true (fun count after same => ?_) (.inl (.inl long))
    cases failed.symm.trans same
  obtain ⟨result, after, ran, succeeds, fails, arrived⟩ := exec_attempt attempt ⟨file, Nat.not_lt.mp long⟩ healthy
  rw [ran]
  by_cases failing : attempt.Fails path
  · obtain ⟨errno, failed⟩ := fails failing
    refine iff_of_true ?_ (.inl failing)
    intro count other same
    rw [failed] at same
    cases same
  · have bound : attempt.count path ≤ attempt.data.length := attempt.count_le
    have small := attempt.fits
    rw [succeeds failing, or_iff_right failing]
    constructor
    · intro stored i inside
      obtain ⟨_, bytes⟩ := stored _ _ rfl
      rw [Words.toNat_ofNat (by omega)] at bytes
      obtain ⟨_, kept⟩ := readAt_attempt attempt arrived (show i < attempt.data.length by omega)
      by_contra neither
      rw [not_or] at neither
      exact neither.2 ((kept neither.1).symm.trans (bytes i inside))
    · rintro each count other same
      cases same
      rw [Words.toNat_ofNat (by omega)]
      refine ⟨bound, fun i inside => ?_⟩
      obtain ⟨new, kept⟩ := readAt_attempt attempt arrived (show i < attempt.data.length by omega)
      by_cases reached : attempt.reached path i
      · exact new reached
      · exact (kept reached).trans ((each i inside).resolve_left reached)

end Calls

/-- A pool whose local writes to one chunk store nothing. -/
def fullAt (chunk : Word) : IoPool :=
  ⟨id, List.Perm.refl, fun chnkId => .stored (if chnkId = chunk then 0 else chunksize), fun _ _ => .ok 1⟩

/-- Two bytes over the end of the first chunk. -/
def straddling (chunk : Word) : Attempt (.pair List.length) :=
  ⟨⟨.first _, false, 524287, [5, 6], by decide, by decide, fun _ => fullAt chunk⟩, show 2 ≤ _ by decide⟩

/-- The second chunk takes nothing, and the first byte is stored. -/
theorem write_prefix_iff_straddling : (straddling 1).count "/file".toList = 1 ∧
    PrefixStored (straddling 1) "/file".toList ((straddling 1).run "/file".toList .fresh) := by
  refine ⟨by decide, (write_prefix_iff (straddling 1) isFilePath_file healthy_fresh).mpr (.inr fun i inside => .inl ?_)⟩
  have each : ∀ i < (straddling 1).count "/file".toList, (straddling 1).reached "/file".toList i := by
    unfold Attempt.reached
    decide
  exact each i inside

/-- The first chunk takes nothing and the second its byte: one byte counts as written, but
it is not the first. -/
theorem prefix_not_stored :
    ((straddling 0).run "/file".toList .fresh).1 = some (.ok 1) ∧
      readAt (.pair List.length) ((straddling 0).run "/file".toList .fresh).2 "/file".toList 524287 = none ∧
      ¬PrefixStored (straddling 0) "/file".toList ((straddling 0).run "/file".toList .fresh) := by
  obtain ⟨result, after, ran, succeeds, _, arrived⟩ := exec_attempt (straddling 0) storable_file healthy_fresh
  have stores : ¬(straddling 0).Fails "/file".toList := by
    rintro (long | ⟨_, _, _, failed⟩)
    · exact absurd long (by decide)
    · cases failed
  have returned : result = .ok 1 := succeeds stores
  have missing : readAt (.pair List.length) after "/file".toList 524287 = none := by
    refine ((readAt_attempt (straddling 0) arrived (show 0 < 2 by decide)).2 ?_).trans ?_
    · unfold Attempt.reached
      decide
    · rw [readAt_eq, stored_fresh, Option.bind_none]
  rw [ran, returned]
  refine ⟨rfl, missing, fun stored => ?_⟩
  have byte := (stored 1 after rfl).2 0 (by decide)
  rw [show (straddling 0).offset + 0 = 524287 from rfl, missing] at byte
  cases byte

end GekkoFwd.Proofs.WritePrefix
