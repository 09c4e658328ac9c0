import GekkoFwd.Lib.Words
import GekkoFwd.Rpc
import GekkoFwd.Proofs.StorageSpec

/-! One daemon's part in a truncate. The handler cuts the boundary chunk and then
removes the chunks behind it; it fails where there is nothing to cut or to list. -/

namespace GekkoFwd.Proofs.TruncateDaemon
open StorageSpec

variable {storage : Storage} {path : Str} {length : Nat}

/-- The number under which the boundary chunk is addressed. -/
def boundary (length : Nat) : Nat := length / chunksize % 2 ^ 32

/-- The offset from which the handler removes bytes. Chunk numbers have 32 bits: far
behind them a length is taken modulo their range, and the number after the last
one is 0. -/
def cutAt (length : Nat) : Nat :=
  if boundary length = 2 ^ 32 - 1 ∧ length % chunksize ≠ 0 then 0 else length % (2 ^ 32 * chunksize)

theorem mod_eq_boundary (length : Nat) :
    length % (2 ^ 32 * chunksize) = boundary length * chunksize + length % chunksize := by
  rw [Nat.mul_comm, Nat.mod_mul, Nat.add_comm, Nat.mul_comm]
  rfl

theorem cutAt_plain (stays : ¬ (boundary length = 2 ^ 32 - 1 ∧ length % chunksize ≠ 0)) :
    cutAt length = boundary length * chunksize + length % chunksize := by
  rw [cutAt, if_neg stays, mod_eq_boundary]

theorem cutAt_le (length : Nat) : cutAt length ≤ length := by
  rw [cutAt]
  split
  next => exact Nat.zero_le _
  next => exact Nat.mod_le _ _

theorem chunkStart_eq (fits : length < 2 ^ 63) :
    (ChunkCalc.chnkIdForOffset (.ofNat 64 length) chunkWord).toNat % 2 ^ 32 = boundary length := by
  have value : (BitVec.ofNat 64 length).toNat = length := Words.toNat_ofNat (by omega)
  rw [chunkWord, ChunkCalc.toNat_chnkIdForOffset (by rw [value]; exact fits), value, boundary]

theorem leftPad_eq (fits : length < 2 ^ 63) :
    (ChunkCalc.chnkLpad (.ofNat 64 length) chunkWord).toNat = length % chunksize := by
  rw [chunkWord, ChunkCalc.toNat_chnkLpad, Words.toNat_ofNat (by omega)]

/-- The host can do its part: it has a directory for the file, and in it the boundary
chunk if that one is to be cut. -/
structure Ready (storage : Storage) (path : Str) (length : Nat) : Prop where
  dir : storage.get [dirName path] = some .dir
  chunk : length % chunksize ≠ 0 → (stored storage (dirName path) (boundary length)).isSome

/-- What a truncate makes of a byte: nothing behind the cut, a hole before it may be
filled with a zero. -/
def Cut (length : Nat) (before after : Option Byte) (x : Nat) : Prop :=
  if x < cutAt length then after = before ∨ (before = none ∧ after = some 0) else after = none

theorem held_trim {after : Storage} {chunkStart : Nat} (trimmed : ∀ dir target, stored after dir target =
      if dir = dirName path ∧ chunkStart ≤ target then none else stored storage dir target) (x : Nat) :
    held after path x = if chunkStart ≤ x / chunksize then none else held storage path x := by
  rw [held, trimmed]
  by_cases gone : chunkStart ≤ x / chunksize <;> simp [gone, held]

theorem held_truncate {after : Storage} {chunkId size : Nat} {content : List Byte}
    (found : stored storage (dirName path) chunkId = some content)
    (cut : ∀ dir target, stored after dir target = if dir = dirName path ∧ target = chunkId
      then some (ByteFile.truncate content size) else stored storage dir target) (x : Nat) :
    if x / chunksize = chunkId ∧ size ≤ x % chunksize then held after path x = none
    else held after path x = held storage path x ∨ (held storage path x = none ∧ held after path x = some 0) := by
  by_cases here : x / chunksize = chunkId
  · have before : held storage path x = content[x % chunksize]? := by rw [held, here, found, Option.bind_some]
    have later : held after path x = (ByteFile.truncate content size)[x % chunksize]? := by
      rw [held, here, cut, if_pos ⟨rfl, rfl⟩, Option.bind_some]
    rw [before, later, ByteFile.getElem?_truncate]
    by_cases small : x % chunksize < size
    · rw [if_neg (by omega), if_pos small]
      by_cases short : x % chunksize < content.length
      · rw [if_pos short]
        exact .inl rfl
      · rw [if_neg short]
        exact .inr ⟨List.getElem?_eq_none (by omega), rfl⟩
    · rw [if_pos ⟨here, by omega⟩, if_neg small]
  · rw [if_neg fun both => here both.1]
    left
    rw [held, cut, if_neg fun both => here both.2, held]

theorem lt_chunk_iff {x c pad : Nat} (small : pad < chunksize) :
    x < c * chunksize + pad ↔ x / chunksize < c ∨ (x / chunksize = c ∧ x % chunksize < pad) := by
  simp only [chunksize] at *
  omega

/-- A host that is ready answers without an error. -/
theorem rpcSrvTruncate_spec (valid : WellFormed storage) (file : IsFilePath path) (ndebug : Bool) (fits : length < 2 ^ 63)
    (ready : Ready storage path length) :
    ∃ after, Daemon.rpcSrvTruncate ndebug path (.ofNat 64 length) storage = (some 0, after) ∧ WellFormed after ∧
      ∀ x, Cut length (held storage path x) (held after path x) x := by
  have small : boundary length < 2 ^ 32 := Nat.mod_lt _ (by decide)
  have pad : length % chunksize < chunksize := Nat.mod_lt _ (by decide)
  by_cases aligned : length % chunksize = 0
  · obtain ⟨after, ran, kept, trimmed⟩ := trimChunkSpace_spec valid file ndebug (boundary length) ready.dir
    refine ⟨after, ?_, kept, fun x => ?_⟩
    · simp only [Daemon.rpcSrvTruncate, chunkStart_eq fits, leftPad_eq fits, aligned, ne_eq, not_true_eq_false, if_false, ran]
    · have place := @lt_chunk_iff x (boundary length) _ pad
      rw [Cut, cutAt_plain fun both => both.2 aligned, held_trim trimmed]
      split
      next before =>
        rw [if_neg (by omega)]
        exact .inl rfl
      next behind => rw [if_pos (by omega)]
  · obtain ⟨content, found⟩ := Option.isSome_iff_exists.mp (ready.chunk aligned)
    obtain ⟨between, cutOk, valid', dirs, cut⟩ := truncateChunk_spec valid file ndebug (by omega) (Nat.le_of_lt pad) found
    obtain ⟨after, ran, kept, trimmed⟩ := trimChunkSpace_spec valid' file ndebug ((boundary length + 1) % 2 ^ 32)
      (by rw [dirs]; exact ready.dir)
    refine ⟨after, ?_, kept, fun x => ?_⟩
    · simp only [Daemon.rpcSrvTruncate, chunkStart_eq fits, leftPad_eq fits, ne_eq, aligned, not_false_eq_true, if_true,
        cutOk, ran]
    · have place := @lt_chunk_iff x (boundary length) _ pad
      have middle := held_truncate found cut x
      rw [Cut, held_trim trimmed]
      by_cases wraps : boundary length = 2 ^ 32 - 1
      · have everything : cutAt length = 0 := if_pos ⟨wraps, aligned⟩
        have first : (boundary length + 1) % 2 ^ 32 = 0 := by
          rw [wraps]
          decide
        rw [everything, if_neg (Nat.not_lt_zero x), first, if_pos (Nat.zero_le _)]
      · have next : (boundary length + 1) % 2 ^ 32 = boundary length + 1 := Nat.mod_eq_of_lt (by omega)
        rw [cutAt_plain fun both => wraps both.1, next]
        split
        next before =>
          rw [if_neg (by omega)] at middle ⊢
          exact middle
        next behind =>
          split
          next => rfl
          next => rwa [if_pos (by omega)] at middle

/-- A host that is not ready loses the request to an exception. -/
theorem rpcSrvTruncate_fails (valid : WellFormed storage) (file : IsFilePath path) (ndebug : Bool) (fits : length < 2 ^ 63)
    (unready : ¬Ready storage path length) :
    (Daemon.rpcSrvTruncate ndebug path (.ofNat 64 length) storage).1 = none := by
  have pad : length % chunksize < chunksize := Nat.mod_lt _ (by decide)
  by_cases aligned : length % chunksize = 0
  · have missing : storage.get [dirName path] = none := by
      cases read : storage.get [dirName path] with
      | none => rfl
      | some node => exact absurd ⟨by rw [read, valid.dirs _ _ read], fun cut => absurd aligned cut⟩ unready
    obtain ⟨_, failed⟩ := trimChunkSpace_missing valid file ndebug (boundary length) missing
    simp only [Daemon.rpcSrvTruncate, chunkStart_eq fits, leftPad_eq fits, aligned, ne_eq, not_true_eq_false, if_false, failed]
  · have missing : stored storage (dirName path) (boundary length) = none := by
      cases found : stored storage (dirName path) (boundary length) with
      | none => rfl
      | some content => exact absurd ⟨valid.dir_of_stored found, fun _ => by rw [found]; rfl⟩ unready
    have small : boundary length < 2 ^ 32 := Nat.mod_lt _ (by decide)
    obtain ⟨_, failed⟩ := truncateChunk_missing valid file ndebug small (Nat.pos_of_ne_zero aligned) (Nat.le_of_lt pad) missing
    simp only [Daemon.rpcSrvTruncate, chunkStart_eq fits, leftPad_eq fits, ne_eq, aligned, not_false_eq_true, if_true, failed]

/-- The host responds without an error, after which it holds no byte of the file from
`length` on and still holds every byte it held before. -/
def Completes (ndebug : Bool) (path : Str) (length : Nat) (storage : Storage) : Prop :=
  ∃ after, Daemon.rpcSrvTruncate ndebug path (.ofNat 64 length) storage = (some 0, after) ∧
    (∀ x, length ≤ x → held after path x = none) ∧
    ∀ x b, x < length → held storage path x = some b → held after path x = some b

/-- A daemon completes a truncate exactly when it is ready for it and holds no byte
before the length that the 32-bit chunk number cuts away. -/
theorem completes_iff_ready (valid : WellFormed storage) (file : IsFilePath path) (ndebug : Bool) (fits : length < 2 ^ 63) :
    Completes ndebug path length storage ↔
      Ready storage path length ∧ ∀ x, x < length → (held storage path x).isSome → x < cutAt length := by
  constructor
  · rintro ⟨after, ran, _, kept⟩
    have ready : Ready storage path length := by
      by_contra unready
      have failed := rpcSrvTruncate_fails valid file ndebug fits unready
      rw [ran] at failed
      cases failed
    refine ⟨ready, fun x before present => ?_⟩
    obtain ⟨b, found⟩ := Option.isSome_iff_exists.mp present
    obtain ⟨other, ran', _, effect⟩ := rpcSrvTruncate_spec valid file ndebug fits ready
    rw [ran, Prod.mk.injEq] at ran'
    by_contra cut
    have gone := effect x
    rw [Cut, if_neg cut, ← ran'.2, kept x b before found] at gone
    cases gone
  · rintro ⟨ready, safe⟩
    obtain ⟨after, ran, _, effect⟩ := rpcSrvTruncate_spec valid file ndebug fits ready
    refine ⟨after, ran, fun x behind => ?_, fun x b before found => ?_⟩
    · have gone := effect x
      have cut := cutAt_le length
      rwa [Cut, if_neg (by omega)] at gone
    · have same := effect x
      rw [Cut, if_pos (safe x before (by rw [found]; rfl)), found] at same
      rcases same with same | ⟨impossible, _⟩
      · exact same
      · cases impossible

/-- The store of a host that holds one chunk of one file. -/
def holding (path : Str) (chunkId : Nat) (content : List Byte) : Storage :=
  AList.insert [dirName path, DecText.toText chunkId] (.file content)
    (AList.insert [dirName path] .dir (AList.insert [] .dir ∅))

theorem holding_spec {path : Str} (fits : (dirName path).length ≤ LocalFs.nameMax) {chunkId : Nat} {content : List Byte}
    (small : chunkId < 2 ^ 32) (short : content.length ≤ chunksize) : WellFormed (holding path chunkId content) ∧
      (holding path chunkId content).get [dirName path] = some .dir ∧
      ∀ c, stored (holding path chunkId content) (dirName path) c = if c = chunkId then some content else none := by
  have made : WellFormed (AList.insert [dirName path] .dir (AList.insert [] .dir ∅)) :=
    wellFormed_root.add_dir fits fun other => LocalFs.FileTree.get_insert _ _ _ _
  have present : LocalFs.FileTree.get (AList.insert [dirName path] .dir (AList.insert [] .dir ∅) : Storage) [dirName path] =
      some .dir := by rw [LocalFs.FileTree.get_insert, if_pos rfl]
  have updated : ∀ other, (holding path chunkId content).get other = if other = [dirName path, DecText.toText chunkId]
      then some (.file content) else LocalFs.FileTree.get (AList.insert [dirName path] .dir (AList.insert [] .dir ∅)) other :=
    fun other => LocalFs.FileTree.get_insert _ _ _ _
  refine ⟨made.put_chunk present small short updated, ?_, fun c => ?_⟩
  · rw [updated, if_neg (by simp)]
    exact present
  · rw [stored_put_chunk updated]
    simp only [true_and]
    split
    next => rfl
    next =>
      refine made.stored_eq_none.mpr ?_
      rw [LocalFs.FileTree.get_insert, if_neg (by simp), LocalFs.FileTree.get_insert, if_neg (by simp)]
      rfl

/-- A host that holds only the second chunk of a file is asked to cut the first one. -/
theorem second_chunk_not_completes : ¬Completes true "/file".toList 1000 (holding "/file".toList 1 [1, 2, 3]) := by
  rintro ⟨after, ran, _⟩
  obtain ⟨valid, _, chunks⟩ := @holding_spec "/file".toList (by decide) 1 [1, 2, 3] (by decide) (by decide)
  have failed := @rpcSrvTruncate_fails _ "/file".toList 1000 valid isFilePath_file true (by decide) fun ready => by
    have missing := ready.chunk (by decide)
    rw [chunks] at missing
    revert missing
    decide
  rw [ran] at failed
  cases failed

/-- A host that holds the boundary chunk completes the cut inside of it. -/
theorem completes_iff_ready_boundary : Completes true "/file".toList 2 (holding "/file".toList 0 [1, 2, 3]) := by
  obtain ⟨valid, present, chunks⟩ := @holding_spec "/file".toList (by decide) 0 [1, 2, 3] (by decide) (by decide)
  refine (completes_iff_ready valid isFilePath_file true (by decide)).mpr ⟨⟨present, fun _ => ?_⟩, fun x before _ => before⟩
  rw [chunks]
  rfl

end GekkoFwd.Proofs.TruncateDaemon
