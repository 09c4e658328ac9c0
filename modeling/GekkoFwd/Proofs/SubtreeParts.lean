import Mathlib.Data.List.Sort
import GekkoFwd.Lib.KeyPart
import GekkoFwd.Proofs.ClientSpec
import GekkoFwd.Proofs.DirectoryListing
import GekkoFwd.Proofs.StorageSpec

/-! The part of a cluster that belongs to one directory: the entries of the directory and
of all paths below it, and the chunk directories of those paths. The handlers of requests
about such paths look at nothing else and change nothing else. -/

namespace GekkoFwd.Proofs.SubtreeParts
open KeyPart LocalFs ChunkStorage StorageSpec

/-! The operations on the chunks of one file. -/

section Storage
variable {path : Str} (file : IsFilePath path) (ndebug : Bool)
include file

theorem confined_initChunkSpace : ConfinedTo (dirName path) (initChunkSpace ndebug path) := by
  refine (Confined.mkdir (dirName path) []).answer (fun storage => ?_) fun storage storage' same => ?_
  · simp only [initChunkSpace, chunkDir_file file, attempt]
    cases FileTree.mkdir storage [dirName path] with
    | ok => rfl
    | error errno => cases errno <;> rfl
  · simp only [initChunkSpace, chunkDir_file file]
    simp only [attempt] at same
    revert same
    rcases FileTree.mkdir storage [dirName path] with errno | made <;> rcases FileTree.mkdir storage' [dirName path] with errno' | made' <;>
      rintro ⟨⟩
    · cases errno <;> rfl
    · rfl

theorem confined_writeChunk (chunkId : Nat) (buff : List Byte) (offset : Nat) (outcome : PwriteOutcome) :
    ConfinedTo (dirName path) (writeChunk ndebug path chunkId buff offset outcome) := by
  unfold writeChunk
  simp only [chunkFile_file file]
  cases assertThat ndebug (decide (offset + buff.length ≤ chunksize)) with
  | error error => exact .pure _
  | ok passed =>
    cases outcome with
    | failed errno =>
      refine (Confined.onOk Except.error (confined_initChunkSpace file ndebug) fun _ => Confined.onSuccess
        (fun errno => .error (.systemError errno)) (Confined.openCreate (dirName path) [DecText.toText chunkId])
        (.pure (.error (.systemError errno)))).congr fun storage => ?_
      rcases initChunkSpace ndebug path storage with ⟨_ | _, made⟩
      · rfl
      · dsimp only
        cases FileTree.openCreate made [dirName path, DecText.toText chunkId] <;> rfl
    | stored count =>
      refine (Confined.onOk Except.error (confined_initChunkSpace file ndebug) fun _ => Confined.onSuccess
        (fun errno => .error (.systemError errno)) (Confined.openCreate (dirName path) [DecText.toText chunkId])
        (.pwrite (dirName path) [DecText.toText chunkId] (buff.take count) offset (.ok (min count buff.length)))).congr fun storage => ?_
      rcases initChunkSpace ndebug path storage with ⟨_ | _, made⟩
      · rfl
      · dsimp only
        cases FileTree.openCreate made [dirName path, DecText.toText chunkId] <;> rfl

theorem confined_truncateChunk (chunkId length : Nat) : ConfinedTo (dirName path) (truncateChunk ndebug path chunkId length) := by
  unfold truncateChunk
  simp only [chunkFile_file file]
  cases assertThat ndebug (decide (0 < length ∧ length % 2 ^ 32 ≤ chunksize)) with
  | error error => exact .pure _
  | ok passed =>
    refine (Confined.onSuccess (fun errno => .error (.systemError errno))
      (Confined.truncate (dirName path) [DecText.toText chunkId] length) (.pure (.ok ()))).congr fun storage => ?_
    dsimp only
    cases FileTree.truncate storage [dirName path, DecText.toText chunkId] length <;> rfl

omit file in
theorem confined_trimEntries (chunkStart chunkEnd : Nat) (names : List Str) :
    ConfinedTo (dirName path) (trimEntries [dirName path] chunkStart chunkEnd names) := by
  induction names with
  | nil => exact .pure _
  | cons name names ih =>
    cases converted : DecText.stoul name with
    | error failure =>
      cases failure with
      | invalidArgument => exact (Confined.pure (.error .invalidArgument)).congr fun storage => by rw [trimEntries, converted]
      | outOfRange => exact (Confined.pure (.error .outOfRange)).congr fun storage => by rw [trimEntries, converted]
    | ok number =>
      by_cases listed : chunkStart ≤ number.1 ∧ number.1 ≤ chunkEnd
      · refine (Confined.onSuccess (fun errno => .error (.systemError errno))
          (Confined.unlink (dirName path) [name]) ih).congr fun storage => ?_
        simp only [trimEntries, converted, if_pos listed, List.singleton_append]
        cases FileTree.unlink storage [dirName path, name] <;> rfl
      · exact ih.congr fun storage => by simp only [trimEntries, converted, if_neg listed]

theorem confined_trimChunkSpace (chunkStart : Nat) : ConfinedTo (dirName path) (trimChunkSpace ndebug path chunkStart) := by
  unfold trimChunkSpace
  simp only [chunkDir_file file]
  refine (Confined.onOk (fun errno => .error (.filesystemError errno)) (Confined.readdir (dirName path) [])
    (confined_trimEntries chunkStart (2 ^ 32 - 1))).congr fun storage => ?_
  cases FileTree.readdir storage [dirName path] <;> rfl

theorem confined_readChunk (chunkId size offset : Nat) (schedule : PreadSchedule) :
    ConfinedTo (dirName path) fun storage => (readChunk ndebug path chunkId size offset schedule storage, storage) := by
  refine (Confined.openRead (dirName path) [DecText.toText chunkId]).answer (fun _ => rfl) fun storage storage' same => ?_
  simp only [readChunk, chunkFile_file file, bind, Except.bind]
  cases assertThat ndebug (decide (offset + size ≤ chunksize)) with
  | error => rfl
  | ok =>
    simp only at same ⊢
    rw [same]

end Storage

/-! The handlers on one host. -/

section Handlers
variable {path : Str} (ndebug : Bool)

private theorem confined_merge {γ : Type} (operand : MergeOperand) (answer : γ) :
    Confined (· = path) (· = path) fun db : MetadataDb => (answer, db.merge path operand) :=
  Confined.insert (β := fun _ => Cell) path (fun found => (found.getD ⟨none, []⟩).merge operand.serialize) answer

private theorem confined_get {γ : Type} (answer : Except Exn Str → γ) :
    Confined (· = path) (fun _ => False) fun db : MetadataDb => (answer (db.get .default ndebug path), db) :=
  Confined.lookup (β := fun _ => Cell) path fun found => answer ((found.getD ⟨none, []⟩).value .default ndebug)

theorem confined_rpcSrvCreate (mode : Mode) : Confined (· = path) (· = path) (Daemon.rpcSrvCreate ndebug path mode) := by
  unfold Daemon.rpcSrvCreate
  cases assertThat ndebug (Mode.isDir mode || Mode.isReg mode) with
  | error => exact .pure _
  | ok _ =>
    simp only [MetadataDb.put, bind, Except.bind]
    cases assertThat ndebug (Path.isAbsolute path) with
    | error => exact .pure _
    | ok _ =>
      cases assertThat ndebug (path == ['/'] || !Path.hasTrailingSlash path) with
      | error => exact .pure _
      | ok _ => exact confined_merge _ _

theorem confined_rpcSrvStat : Confined (· = path) (fun _ => False) fun db => (Daemon.rpcSrvStat ndebug path db, db) := by
  refine (confined_get ndebug id).answer (fun _ => rfl) fun db db' same => ?_
  simp only [id] at same
  simp only [Daemon.rpcSrvStat, same]

theorem confined_rpcSrvGetMetadentrySize :
    Confined (· = path) (fun _ => False) fun db => (Daemon.rpcSrvGetMetadentrySize ndebug path db, db) := by
  refine (confined_get ndebug id).answer (fun _ => rfl) fun db db' same => ?_
  simp only [id] at same
  simp only [Daemon.rpcSrvGetMetadentrySize, same]

theorem confined_rpcSrvDecrSize (length : Word) : Confined (· = path) (· = path) (Daemon.rpcSrvDecrSize path length) :=
  confined_merge _ _

theorem confined_rpcSrvUpdateMetadentrySize (size offset : Word) (append : Bool) :
    Confined (· = path) (· = path) (Daemon.rpcSrvUpdateMetadentrySize path size offset append) :=
  confined_merge _ _

private theorem sortedKeys_part (keep : Str → Bool) (db : MetadataDb) :
    MetadataDb.sortedKeys (part keep db) = db.sortedKeys.filter keep := by
  rw [MetadataDb.sortedKeys, MetadataDb.sortedKeys, keys_part]
  have sorted := List.pairwise_mergeSort' (· ≤ ·) db.keys
  have reordered := (List.mergeSort_perm db.keys (fun a b => decide (a ≤ b))).filter keep
  exact ((List.mergeSort_perm _ _).trans reordered.symm).eq_of_pairwise' (List.pairwise_mergeSort' (· ≤ ·) _) (sorted.filter keep)

private theorem mapM_congr {values : List Str} {f g : Str → Except Exn (Option (Str × Bool))}
    (same : ∀ value ∈ values, f value = g value) : values.mapM f = values.mapM g := by
  induction values with
  | nil => rfl
  | cons value values ih =>
    rw [List.mapM_cons, List.mapM_cons, same value List.mem_cons_self, ih fun other member => same other (List.mem_cons_of_mem _ member)]

/-- A listing reads the keys that continue the directory's path. -/
theorem confined_rpcSrvGetDirents (bulkSize : Nat) :
    Confined (MetadataDb.rootPath path <+: ·) (fun _ => False) fun db => (Daemon.rpcSrvGetDirents ndebug path bulkSize db, db) := by
  refine .read fun keep kept (db : MetadataDb) => ?_
  have scanned : PrefixScan.scan (MetadataDb.rootPath path) (MetadataDb.sortedKeys (part keep db)) =
      PrefixScan.scan (MetadataDb.rootPath path) db.sortedKeys := by
    rw [DirectoryListing.scan_sortedKeys, DirectoryListing.scan_sortedKeys, sortedKeys_part, List.filter_filter]
    refine List.filter_congr fun key _ => ?_
    cases continued : (MetadataDb.rootPath path).isPrefixOf key with
    | false => rfl
    | true => rw [kept key (.inl (List.isPrefixOf_iff_prefix.mp continued))]; rfl
  have listed : MetadataDb.getDirents .default ndebug (part keep db) path = db.getDirents .default ndebug path := by
    simp only [MetadataDb.getDirents, scanned]
    rw [mapM_congr]
    intro key member
    rw [DirectoryListing.scan_sortedKeys, List.mem_filter, List.isPrefixOf_iff_prefix] at member
    rw [MetadataDb.get, MetadataDb.get, MetadataDb.cell, MetadataDb.cell, lookup_part db (kept key (.inl member.2))]
  rw [Daemon.rpcSrvGetDirents, Daemon.rpcSrvGetDirents, listed]

variable (file : IsFilePath path)
include file

theorem confined_rpcSrvTruncate (length : Word) : ConfinedTo (dirName path) (Daemon.rpcSrvTruncate ndebug path length) := by
  let chunkStart := (ChunkCalc.chnkIdForOffset length chunkWord).toNat % 2 ^ 32
  let leftPad := (ChunkCalc.chnkLpad length chunkWord).toNat
  have cuts : ConfinedTo (dirName path) fun storage : Storage =>
      if leftPad ≠ 0 then truncateChunk ndebug path chunkStart leftPad storage else (.ok (), storage) := by
    split
    next => exact confined_truncateChunk file ndebug chunkStart leftPad
    next => exact .pure _
  have trims := confined_trimChunkSpace file ndebug (if leftPad ≠ 0 then (chunkStart + 1) % 2 ^ 32 else chunkStart)
  refine (Confined.onOk (fun _ => none) cuts fun _ => Confined.onOk (fun _ => none) trims fun _ => .pure (some 0)).congr fun storage => ?_
  rw [Daemon.rpcSrvTruncate]
  dsimp only
  rcases (if leftPad ≠ 0 then truncateChunk ndebug path chunkStart leftPad storage else (.ok (), storage)) with ⟨_ | _, cut⟩
  · rfl
  · dsimp only
    rcases trimChunkSpace ndebug path (if leftPad ≠ 0 then (chunkStart + 1) % 2 ^ 32 else chunkStart) cut with ⟨_ | _, _⟩ <;> rfl

theorem confined_writeFileAbt (bulk : List Byte) (outcome : PwriteOutcome) (task : SrvSplit.Task) :
    ConfinedTo (dirName path) (Daemon.writeFileAbt ndebug path bulk outcome task) := by
  refine (confined_writeChunk file ndebug task.chunkId (ByteFile.pread bulk task.size.toNat task.buf.toNat)
    task.off.toNat outcome).answer (fun storage => ?_) fun storage storage' same => ?_
  · rw [Daemon.writeFileAbt]
    split <;> rename_i wrote <;> rw [wrote]
  · rw [Daemon.writeFileAbt, Daemon.writeFileAbt]
    revert same
    rcases writeChunk ndebug path task.chunkId (ByteFile.pread bulk task.size.toNat task.buf.toNat) task.off.toNat outcome
      storage with ⟨answer, after⟩
    rcases writeChunk ndebug path task.chunkId (ByteFile.pread bulk task.size.toNat task.buf.toNat) task.off.toNat outcome
      storage' with ⟨answer', after'⟩
    rintro ⟨⟩
    rcases answer with (_ | _) | _ <;> rfl

theorem confined_runTasks (bulk : List Byte) (pool : IoPool) (tasks : List SrvSplit.Task) :
    ConfinedTo (dirName path) (Daemon.runTasks ndebug path bulk pool tasks) := by
  induction tasks with
  | nil => exact .pure _
  | cons task tasks ih =>
    let proceed : Option Int → Storage → Option (List (SrvSplit.Task × Int)) × Storage := fun wrote after =>
      wrote.elim (none, after) fun wrote => ((Daemon.runTasks ndebug path bulk pool tasks after).1.map fun results => (task, wrote) ::
        results,
        (Daemon.runTasks ndebug path bulk pool tasks after).2)
    have proceeds : ∀ wrote, ConfinedTo (dirName path) (proceed wrote) := by
      intro wrote
      cases wrote with
      | none => exact .pure _
      | some wrote => exact ih.map _
    refine ((confined_writeFileAbt ndebug file bulk (pool.pwrite task.chnkId) task).bind proceeds).congr fun storage => ?_
    rw [Daemon.runTasks]
    rcases Daemon.writeFileAbt ndebug path bulk (pool.pwrite task.chnkId) task storage with ⟨_ | wrote, after⟩
    · rfl
    · dsimp only [proceed, Option.elim_some]
      rcases Daemon.runTasks ndebug path bulk pool tasks after with ⟨_ | _, _⟩ <;> rfl

omit file in
theorem confined_rpcSrvWrite (deployment : Deployment) (pool : IoPool) {input : DataIn} (file : IsFilePath input.path) (buf : List Byte) :
    ConfinedTo (dirName input.path) (Daemon.rpcSrvWrite deployment pool input buf) := by
  cases ran : SrvSplit.run deployment.strHash deployment.forwarding input with
  | none => exact (Confined.pure none).congr fun storage => by rw [Daemon.rpcSrvWrite, ran]; rfl
  | some final =>
    refine ((confined_runTasks deployment.ndebug file (Daemon.pullAll input buf final.tasks) pool (pool.order final.tasks)).map
      fun results => results.map fun results =>
        Daemon.awaitWrites (final.tasks.map fun task => (results.lookup task).getD 0)).congr fun storage => ?_
    rw [Daemon.rpcSrvWrite, ran, Option.elim_some, Daemon.finishWrite]
    rcases Daemon.runTasks deployment.ndebug input.path (Daemon.pullAll input buf final.tasks) pool (pool.order final.tasks) storage
      with ⟨_ | _, _⟩ <;> rfl

omit file in
theorem confined_rpcSrvRead (deployment : Deployment) (pool : IoPool) {input : DataIn} (file : IsFilePath input.path) :
    ConfinedTo (dirName input.path) fun storage => (Daemon.rpcSrvRead deployment pool input storage, storage) := by
  refine .read fun keep kept storage => ?_
  have same : ∀ task, Daemon.readFileAbt deployment.ndebug input.path (pool.pread task.chnkId) task (part keep storage) =
      Daemon.readFileAbt deployment.ndebug input.path (pool.pread task.chnkId) task storage := by
    intro task
    have chunk := (confined_readChunk file deployment.ndebug task.chunkId task.size.toNat task.off.toNat
      (pool.pread task.chnkId)).inside keep kept storage
    exact congrArg Daemon.readEventual (Prod.mk.inj chunk).1
  simp only [Daemon.rpcSrvRead, same]

end Handlers
end GekkoFwd.Proofs.SubtreeParts
