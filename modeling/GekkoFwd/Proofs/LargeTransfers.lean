import GekkoFwd.Proofs.IoPartition
import GekkoFwd.Proofs.HookErrors

/-! What the hooks for reading and writing make of a count. `with_errno` takes and
returns an `int`, the counts of the functions behind it are wider. -/

namespace GekkoFwd.Proofs.LargeTransfers
open RpcProgram FileOps ErrorCodes TransferErrors

/-- The bytes in the buffers of a call that reads or writes. -/
def capacity : HookCall → Option Nat
  | .read _ buf | .pread _ buf _ | .write _ buf | .pwrite _ buf _ => some buf.length
  | .readv _ iov | .preadv _ iov _ | .writev _ iov | .pwritev _ iov _ => some (iov.map List.length).sum
  | _ => none

theorem withErrno_eq_iff {errno ret : Int} (int : -2 ^ 31 < errno) (success : 0 ≤ ret) :
    HookCall.withErrno errno ret = ret ↔ ret < 2 ^ 31 := by
  have most : (BitVec.ofInt 32 ret).toInt < 2 ^ 31 := BitVec.toInt_lt
  rw [HookCall.withErrno]
  constructor
  · intro same
    split at same <;> omega
  · intro small
    have kept : (BitVec.ofInt 32 ret).toInt = ret := BitVec.toInt_ofInt_eq_self (by decide) (by omega) small
    rw [kept]
    exact if_neg (Int.not_lt.mpr success)

theorem result_transfer {call : HookCall} {count : Nat} (transfers : capacity call = some count) (stale : Int) (outcome : Outcome) :
    call.result stale outcome = HookCall.withErrno (outcome.errno.getD stale) outcome.ret := by
  cases call <;> first | rfl | cases transfers

/-- A success that is no larger than the buffers. -/
def Within (count : Nat) (outcome : Outcome) : Prop := outcome.ret ≤ count

theorem within_ofResult {regular : Prop} {count : Nat} (limit : count < 2 ^ 63) {log : List (Exchange Request)} {result : SysResult Word}
    (moves : Moves regular count log result) : Within count (.ofResult BitVec.toInt result) := by
  cases result with
  | error errno => exact Int.le_trans (show (-1 : Int) ≤ 0 by decide) (Int.natCast_nonneg count)
  | ok total =>
    have bounded := moves.bounded total rfl
    have value : total.toInt = total.toNat := BitVec.toInt_eq_toNat_of_lt (by omega)
    simp only [Within, Outcome.ofResult, value]
    exact Int.ofNat_le.mpr bounded

theorem within_vectored {regular : Prop} {iov : List (List Byte)} (limit : (iov.map List.length).sum < 2 ^ 63)
    {log : List (Exchange Request)} {total : Word} {errno : Option Int} (moved : Vectored regular iov 0 log total errno) :
    Within (iov.map List.length).sum (vectoredOutcome total errno) := by
  have bounded : total.toNat ≤ (iov.map List.length).sum := by simpa using moved.most
  have value : total.toInt = total.toNat := BitVec.toInt_eq_toNat_of_lt (by omega)
  rw [Within, vectoredOutcome]
  dsimp only
  split <;> omega

theorem within_advance {deployment : Deployment} {file : OpenFile} {outcome : Outcome} {count : Nat} (within : Within count outcome) :
    Ensures possible (advance deployment file outcome) fun _ result => Within count result.1 := by
  refine ensures_assertClient_nil.bind fun log _ _ => ?_
  split
  next => exact Int.le_trans (show (-1 : Int) ≤ 0 by decide) (Int.natCast_nonneg count)
  next => exact within

section Bounds
variable {deployment : Deployment} {client : Client deployment} {file : OpenFile}

theorem within_gkfsPwritev {iov : List (List Byte)} (limit : (iov.map List.length).sum < 2 ^ 63) {pos : Word} :
    Ensures possible (gkfsPwritev client file iov pos) fun _ outcome => Within (iov.map List.length).sum outcome :=
  (ensures_vectored (fun _ _ small => ensures_pwriteBuffer small) (by simpa using limit)).bind
    fun log result moved => within_vectored limit moved

theorem within_gkfsPreadv {iov : List (List Byte)} (limit : (iov.map List.length).sum < 2 ^ 63) {pos : Word} :
    Ensures possible (gkfsPreadv client file iov pos) fun _ result => Within (iov.map List.length).sum result.1 :=
  (ensures_vectored (fun buf pos small => ensures_gkfsPread small) (by simpa using limit)).bind
    fun log result moved => within_vectored limit moved

/-- No call returns more than its buffers hold. -/
theorem within_operation {call : HookCall} {count : Nat} (transfers : capacity call = some count) (limit : count < 2 ^ 63) :
    Ensures possible (call.operation client) fun _ outcome => Within count outcome := by
  cases call <;> try (cases transfers; done)
  all_goals cases transfers
  case read file buf =>
    have fills : Ensures possible (gkfsRead client file buf) fun _ result => Within buf.length (.ofResult BitVec.toInt result.1) :=
      (ensures_gkfsPread limit).bind fun _ _ moves => within_ofResult limit moves
    exact fills.bind fun _ _ within => within
  case pread file buf pos => exact (ensures_gkfsPread limit).bind fun _ _ moves => within_ofResult limit moves
  case write file buf =>
    have drains : Ensures possible (gkfsWrite client file buf) fun _ result => Within buf.length (.ofResult BitVec.toInt result.1) :=
      (ensures_true _).bind fun _ _ _ => (ensures_gkfsPwrite limit).bind fun _ _ moves => within_ofResult limit moves
    exact drains.bind fun _ _ within => within
  case pwrite file buf pos => exact (ensures_gkfsPwrite limit).bind fun _ _ moves => within_ofResult limit moves
  case readv file iov =>
    have fills : Ensures possible (gkfsReadv client file iov) fun _ result => Within (iov.map List.length).sum result.1 :=
      (within_gkfsPreadv limit).bind fun _ _ within => (within_advance within).bind fun _ _ within => within
    exact fills.bind fun _ _ within => within
  case preadv file iov pos => exact (within_gkfsPreadv limit).bind fun _ _ within => within
  case writev file iov =>
    have drains : Ensures possible (gkfsWritev client file iov) fun _ result => Within (iov.map List.length).sum result.1 :=
      (within_gkfsPwritev limit).bind fun _ _ within => within_advance within
    exact drains.bind fun _ _ within => within
  case pwritev file iov pos => exact within_gkfsPwritev limit

end Bounds

/-- The hook returns the count of a successful transfer exactly when the count is an
`int`, which it always is for buffers of less than 2 GiB. -/
theorem hook_returns_count_iff {deployment : Deployment} (client : Client deployment) {call : HookCall} {count : Nat}
    (transfers : capacity call = some count) :
    (∀ {σ : Type} (server : Server Request σ) (state after : σ) (outcome : Outcome) (stale : Int),
      server.exec (call.operation client) state = (some outcome, after) → 0 ≤ outcome.ret → -2 ^ 31 < outcome.errno.getD stale →
      (call.result stale outcome = outcome.ret ↔ outcome.ret < 2 ^ 31)) ∧
    (count < 2 ^ 31 → Ensures possible (call.operation client) fun _ outcome => outcome.ret < 2 ^ 31) := by
  refine ⟨fun server state after outcome stale ran success int => ?_, fun small => ?_⟩
  · rw [result_transfer transfers, withErrno_eq_iff int success]
  · refine (within_operation transfers (by omega)).mono fun log outcome within => ?_
    rw [Within] at within
    omega

/-- Daemons with some bytes to read. The first that is asked has them all. -/
def supply : Server Request Nat where
  handle _ request bytes :=
    match request with
    | .readData _ => (some (0, .ofNat 64 bytes, []), 0)
    | _ => (none, bytes)

theorem collectSizes_supply (requests : List (Nat × DataIn)) (bytes : Nat) :
    ClientOps.collectSizes ((supply.handleAll (requests.map fun request => (request.1, Request.readData request.2)) bytes).1.map
      fun reply => reply.map fun answer => (answer.1, answer.2.1)) = .ok (if requests = [] then 0 else .ofNat 64 bytes) := by
  induction requests generalizing bytes with
  | nil => rfl
  | cons request requests ih =>
    have rest : (if requests = [] then 0 else .ofNat 64 0 : Word) = 0 := ite_self _
    simp only [List.map_cons, Server.handleAll, supply, Option.map_some, ClientOps.collectSizes]
    have later := ih 0
    simp only [supply] at later
    rw [later, rest]
    simp

theorem exec_pread_supply {deployment : Deployment} (client : Client deployment) (file : OpenFile) (regular : file.type = .regular)
    (buf : List Byte) (positive : 0 < buf.length) (limit : buf.length < 2 ^ 63) :
    (supply.exec ((HookCall.pread file buf 0).operation client) buf.length).1 = some ⟨buf.length, none⟩ := by
  let range : ChunkPartition.IoRange := ⟨0, buf.length, positive, by omega⟩
  obtain ⟨targets, request, final, dispatch⟩ := IoPartition.exists_dispatch client file.path range
  have asked : targets.map (fun target => (target, request target)) ≠ [] := by
    rw [ne_eq, List.map_eq_nil_iff]
    refine List.ne_nil_of_mem ((dispatch.mem_targets _).mpr ⟨range.split.first, ⟨Nat.le_refl _, ?_⟩, rfl⟩)
    exact range.split.first_le_last
  have inputs : Transfer.inputs (.forwardRead 0 (.ofNat 64 buf.length)) client file.path =
      some (targets.map fun target => (target, request target)) := dispatch.inputs
  have value : (BitVec.ofNat 64 buf.length).toInt = buf.length := by
    rw [BitVec.toInt_eq_toNat_of_lt] <;> rw [Words.toNat_ofNat] <;> omega
  simp only [HookCall.operation, FileOps.gkfsPread, if_pos regular, ClientOps.gkfsPread, ClientOps.forwardRead, inputs,
    Option.elim_some, Program.bind_eq, Program.bind, Program.pure_eq, Server.exec_post, Server.exec_pure, collectSizes_supply,
    if_neg asked, Outcome.ofResult, value]

theorem hook_returns_count_iff_small : capacity (.pread (.opened "/file".toList) [0, 0, 0] 0) = some 3 ∧
    (supply.exec (HookCall.operation (.first (.pair List.length)) (.pread (.opened "/file".toList) [0, 0, 0] 0)) 3).1 = some ⟨3, none⟩ ∧
    HookCall.result 0 (.pread (.opened "/file".toList) [0, 0, 0] 0) ⟨3, none⟩ = 3 := by
  have transfers : capacity (.pread (.opened "/file".toList) [0, 0, 0] 0) = some 3 := rfl
  have ran := exec_pread_supply (.first (.pair List.length)) (.opened "/file".toList) rfl [0, 0, 0] (by decide) (by decide)
  refine ⟨transfers, ran, ?_⟩
  exact ((hook_returns_count_iff (.first (.pair List.length)) transfers).1 supply 3 _ ⟨3, none⟩ 0 (Prod.ext ran rfl)
    (by decide) (by decide)).mpr (by decide)

/-- A read of 2 GiB at the beginning of a file. -/
def largeRead : HookCall := .pread (.opened "/file".toList) (List.replicate (2 ^ 31) 0) 0

/-- All bytes were read, and the application gets the last error instead of their number. -/
theorem large_read_returns_stale_errno :
    (supply.exec (largeRead.operation (.first (.pair List.length))) (2 ^ 31)).1 = some ⟨2 ^ 31, none⟩ ∧
    largeRead.result Errno.eio ⟨2 ^ 31, none⟩ = -Errno.eio ∧ -Errno.eio ≠ 2 ^ 31 := by
  refine ⟨?_, rfl, by decide⟩
  have length : (List.replicate (2 ^ 31) (0 : Byte)).length = 2 ^ 31 := List.length_replicate
  have ran := exec_pread_supply (.first (.pair List.length)) (.opened "/file".toList) rfl (List.replicate (2 ^ 31) 0)
    (by rw [length]; decide) (by rw [length]; decide)
  rwa [length] at ran

end GekkoFwd.Proofs.LargeTransfers
