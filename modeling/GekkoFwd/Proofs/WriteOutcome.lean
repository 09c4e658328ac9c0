import Mathlib.Algebra.Order.BigOperators.Group.List
import GekkoFwd.Proofs.DataPath

/-! Writes whose local calls may be short or fail: what each chunk file takes, and what the
client makes of the answers. It adds up what was taken, in whatever order, and does not look
where in its buffer it came from. -/

namespace GekkoFwd.Proofs.WriteOutcome
open ChunkPartition IoPartition StorageSpec DataPath ChunkStorage

variable {deployment : Deployment} {path : Str}

/-- A call of `gkfs_pwrite`, with the outcome of every local call. -/
structure Write (deployment : Deployment) where
  client : Client deployment
  appendFlag : Bool
  offset : Nat
  data : List Byte
  some_data : data ≠ []
  fits : offset + data.length < 2 ^ 63
  pools : Nat → IoPool

namespace Write

def range (call : Write deployment) : IoRange :=
  ⟨call.offset, call.data.length, List.length_pos_iff.mpr call.some_data, call.fits⟩

/-- The call executed on its own. -/
def run (path : Str) (cluster : Cluster) (call : Write deployment) : Option (SysResult Word) × Cluster :=
  (Cluster.server deployment call.pools).exec
    (ClientOps.gkfsPwrite call.client path call.appendFlag call.data (.ofNat 64 call.offset)) cluster

/-- The state that it leaves. -/
def exec (path : Str) (cluster : Cluster) (call : Write deployment) : Cluster := (call.run path cluster).2

/-- The outcome of the local call for a chunk. -/
def outcome (path : Str) (call : Write deployment) (c : Nat) : PwriteOutcome :=
  (call.pools (call.client.locateData path c)).pwrite (.ofNat 64 c)

/-- A local call fails: the name of the chunk directory is too long for it to be made, or
the `pwrite` of a chunk fails. -/
def Fails (path : Str) (call : Write deployment) : Prop :=
  LocalFs.nameMax < (dirName path).length ∨ ∃ c ∈ call.range.split.blocks, ∃ errno, call.outcome path c = .failed errno

/-- How much of its piece a chunk takes, and all of them together. -/
def takes (path : Str) (call : Write deployment) (c : Nat) : Nat :=
  match call.outcome path c with
  | .stored count => min count (call.range.split.size c)
  | .failed _ => 0

def count (path : Str) (call : Write deployment) : Nat := (call.range.split.blocks.map (call.takes path)).sum

/-- What arrives of the piece of a chunk. -/
def arrived (path : Str) (call : Write deployment) (c : Nat) : List Byte :=
  landed (call.outcome path c) (slice call.range call.data c)

/-- What the task of a chunk puts into its eventual. -/
def value (path : Str) (call : Write deployment) (c : Nat) : Int :=
  if (dirName path).length ≤ LocalFs.nameMax then eventual (call.outcome path c) (slice call.range call.data c)
  else -LocalFs.Errno.enametoolong.value

variable (call : Write deployment)

theorem length_slice {c : Nat} (member : c ∈ call.range.split.blocks) :
    (slice call.range call.data c).length = call.range.split.size c :=
  DataPath.length_slice (show call.data.length = call.range.size from rfl) (call.range.split.mem_blocks.mp member)

theorem length_arrived {c : Nat} (member : c ∈ call.range.split.blocks) :
    (call.arrived path c).length = call.takes path c := by
  rw [arrived, takes]
  cases call.outcome path c with
  | stored count => rw [landed, List.length_take, call.length_slice member]
  | failed errno => rfl

theorem takes_le (c : Nat) : call.takes path c ≤ call.range.split.size c := by
  rw [takes]
  cases call.outcome path c with
  | stored count => exact Nat.min_le_right _ _
  | failed errno => exact Nat.zero_le _

theorem sum_size : (call.range.split.blocks.map call.range.split.size).sum = call.data.length := call.range.split.total_range

theorem count_le : call.count path ≤ call.data.length := by
  rw [← call.sum_size]
  exact List.sum_le_sum fun c _ => call.takes_le c

end Write

theorem value_pos (errno : LocalFs.Errno) : 0 < errno.value := by
  cases errno <;> decide

theorem awaitWrites_failed {results : List Int} {wrote : Int} (member : wrote ∈ results) (failed : wrote < 0) :
    (Daemon.awaitWrites results).1 ≠ 0 := by
  induction results with
  | nil => cases member
  | cons first results ih =>
    rw [Daemon.awaitWrites]
    split
    next negative =>
      intro zero
      simp only at zero
      omega
    next positive =>
      rcases List.mem_cons.mp member with rfl | later
      · exact absurd failed positive
      · exact ih later

theorem collectSizes_failed {replies : List (Option (Int × Word))} {err : Int} {size : Word} (member : some (err, size) ∈ replies)
    (failed : err ≠ 0) : ∃ errno, ClientOps.collectSizes replies = .error errno := by
  induction replies with
  | nil => cases member
  | cons reply replies ih =>
    rcases List.mem_cons.mp member with rfl | later
    · cases collected : ClientOps.collectSizes replies with
      | error errno => exact ⟨errno, by simp only [ClientOps.collectSizes, collected]⟩
      | ok total => exact ⟨err, by simp only [ClientOps.collectSizes, collected, if_pos failed]⟩
    · obtain ⟨errno, collected⟩ := ih later
      exact ⟨errno, by simp only [ClientOps.collectSizes, collected]⟩

theorem eventual_of_stored {outcome : PwriteOutcome} (succeeds : ∀ errno, outcome ≠ .failed errno) (bytes : List Byte) :
    eventual outcome bytes = (landed outcome bytes).length := by
  cases outcome with
  | stored count => rw [eventual, landed, List.length_take]
  | failed errno => exact absurd rfl (succeeds errno)

section Answers
variable {call : Write deployment} {targets : List Nat} {request : Nat → DataIn} {final : Nat → SrvSplit.State}

/-- The chunks of a call that one host gets. -/
def mine (path : Str) (call : Write deployment) (target : Nat) : List Nat :=
  call.range.chunks fun c => decide (call.client.locateData path c = target)

theorem mem_mine {target c : Nat} : c ∈ mine path call target ↔ c ∈ call.range.split.blocks ∧ call.client.locateData path c = target := by
  rw [mine, call.range.mem_chunks, decide_eq_true_eq, call.range.split.mem_blocks]

/-- What a target answers to its part of a write. -/
def writeAnswer (path : Str) (call : Write deployment) (target : Nat) : Int × Word :=
  Daemon.awaitWrites ((mine path call target).map (call.value path))

theorem collectSizes_stored (dispatch : Dispatch call.client path call.range targets request final) (succeeds : ¬call.Fails path) :
    ClientOps.collectSizes (targets.map fun target => some (writeAnswer path call target)) = .ok (.ofNat 64 (call.count path)) := by
  obtain ⟨short, stores⟩ := not_or.mp succeeds
  have answer : ∀ target, writeAnswer path call target = (0, .ofNat 64 ((mine path call target).map (call.takes path)).sum) := by
    intro target
    rw [writeAnswer, ← awaitWrites_counts, List.map_map]
    refine congrArg _ (List.map_congr_left fun c own => ?_)
    have block := (mem_mine.mp own).1
    rw [Write.value, if_pos (Nat.not_lt.mp short), eventual_of_stored fun errno failed => stores ⟨c, block, errno, failed⟩,
      Function.comp_apply, ← call.length_arrived block]
    rfl
  simp only [answer]
  rw [Write.count, ← BlockSplit.sum_owners (call.client.locateData path) (call.takes path) dispatch.distinct
    fun c member => (dispatch.mem_targets _).mpr ⟨c, call.range.split.mem_blocks.mp member, rfl⟩, ← collectSizes_ok, List.map_map]
  rfl

theorem collectSizes_fails (dispatch : Dispatch call.client path call.range targets request final) (fails : call.Fails path) :
    ∃ errno, ClientOps.collectSizes (targets.map fun target => some (writeAnswer path call target)) = .error errno := by
  obtain ⟨c, block, negative⟩ : ∃ c ∈ call.range.split.blocks, call.value path c < 0 := by
    by_cases short : (dirName path).length ≤ LocalFs.nameMax
    · obtain ⟨c, block, errno, failed⟩ := fails.resolve_left (Nat.not_lt.mpr short)
      have positive := value_pos errno
      refine ⟨c, block, ?_⟩
      rw [Write.value, if_pos short, failed, eventual]
      omega
    · refine ⟨_, call.range.split.mem_blocks.mpr ⟨Nat.le_refl _, call.range.split.first_le_last⟩, ?_⟩
      rw [Write.value, if_neg short]
      decide
  have target := (dispatch.mem_targets _).mpr ⟨c, call.range.split.mem_blocks.mp block, rfl⟩
  exact collectSizes_failed (List.mem_map_of_mem target) (awaitWrites_failed (List.mem_map_of_mem (mem_mine.mpr ⟨block, rfl⟩)) negative)

/-- A call that returns its size has been stored whole. -/
theorem arrived_of_full (dispatch : Dispatch call.client path call.range targets request final)
    (full : ClientOps.collectSizes (targets.map fun target => some (writeAnswer path call target)) = .ok (.ofNat 64 call.data.length)) :
    (dirName path).length ≤ LocalFs.nameMax ∧ ∀ c ∈ call.range.split.blocks, call.arrived path c = slice call.range call.data c := by
  by_cases fails : call.Fails path
  · obtain ⟨errno, failed⟩ := collectSizes_fails dispatch fails
    cases failed.symm.trans full
  have total : call.count path = call.data.length := by
    have same := Except.ok.inj ((collectSizes_stored dispatch fails).symm.trans full)
    have most : call.count path ≤ call.data.length := call.count_le
    have small := call.fits
    have values := congrArg BitVec.toNat same
    rwa [Words.toNat_ofNat (by omega), Words.toNat_ofNat (by omega)] at values
  refine ⟨Nat.not_lt.mp (not_or.mp fails).1, fun c block => ?_⟩
  have all : call.takes path c = call.range.split.size c := by
    by_contra fewer
    have less : (call.range.split.blocks.map (call.takes path)).sum < (call.range.split.blocks.map call.range.split.size).sum :=
      List.sum_lt_sum _ _ (fun c _ => call.takes_le c) ⟨c, block, lt_of_le_of_ne (call.takes_le c) fewer⟩
    rw [call.sum_size] at less
    exact absurd total (Nat.ne_of_lt less)
  have length : (call.arrived path c).length = (slice call.range call.data c).length := by
    rw [call.length_arrived block, all, call.length_slice block]
  rw [Write.arrived] at length ⊢
  cases outcome : call.outcome path c with
  | stored count =>
    rw [outcome, landed, List.length_take] at length
    exact List.take_of_length_le (by omega)
  | failed errno =>
    rw [outcome, landed, List.length_nil] at length
    exact (List.eq_nil_of_length_eq_zero length.symm).symm

end Answers

end GekkoFwd.Proofs.WriteOutcome
