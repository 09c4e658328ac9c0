import GekkoFwd.Proofs.FileSystemState
import GekkoFwd.Proofs.SparseReads

/-! Calls on a file against the specified file system: its attributes, reads and writes of
ranges that may span many chunks on many hosts, and truncates. -/

namespace GekkoFwd.Proofs.FileSystemRefinement
open RpcProgram ClientOps ClientSpec MergeLaws StorageSpec ChunkPartition DataPath WriteOutcome ReadAfterWrite TruncateDaemon TruncateOwners
  ChunkRequests FileSystemSpec

variable {deployment : Deployment} {pools : Nat → IoPool} {client : Client deployment} {fs : FileSystem} {path : Str}
  {cluster : Cluster}

section File
variable {permissions : Permissions} {content : List Byte} {after : Cluster}

/-- The chunk of a byte is there, and with it the directory of the chunks. -/
theorem Represents.chunk (represents : Represents deployment fs cluster) (plain : Plain path)
    (named : fs path = some (.file permissions content)) {c : Nat} (inside : c * chunksize < content.length) :
    (stored (cluster.storage (deployment.chunkBackend path c)) (dirName path) c).isSome := by
  have byte := represents.bytes path plain (c * chunksize)
  rw [contentAt, named, Option.elim_some, Node.content, List.getElem?_eq_getElem inside, byteAt, held,
    Nat.mul_div_cancel _ (by decide)] at byte
  cases found : stored (cluster.storage (deployment.chunkBackend path c)) (dirName path) c with
  | none =>
    rw [found] at byte
    cases byte
  | some chunk => rfl

theorem Represents.isFilePath (represents : Represents deployment fs cluster) (plain : Plain path)
    (named : fs path = some (.file permissions content)) : IsFilePath path := by
  refine ⟨plain.canonical, ?_⟩
  rintro rfl
  obtain ⟨_, top⟩ := represents.root
  cases named.symm.trans top

theorem Represents.storable (represents : Represents deployment fs cluster) (plain : Plain path) (short : Nameable path)
    (named : fs path = some (.file permissions content)) : Storable path := by
  refine ⟨represents.isFilePath plain named, ?_⟩
  rw [dirName, List.length_map, List.length_tail]
  exact Nat.sub_le_of_le_add short

theorem Represents.length_lt (represents : Represents deployment fs cluster) (named : fs path = some (.file permissions content)) :
    content.length < 2 ^ 63 := by
  obtain ⟨_, _, _, _, fits⟩ := represents.found named
  exact fits

/-- A file keeps its permissions while the size in its entry follows its contents. -/
theorem Represents.rewrite (represents : Represents deployment fs cluster) (plain : Plain path)
    (named : fs path = some (.file permissions content)) {operand : MergeOperand} {written : List Byte}
    (changed : after.mdb = Function.update cluster.mdb (deployment.metadataHost path)
      ((cluster.mdb (deployment.metadataHost path)).merge path operand))
    (applied : effect false (.ofNat 64 content.length) operand = .ok (.ofNat 64 written.length)) (small : written.length < 2 ^ 63)
    (healthy : Healthy after) (elsewhere : Elsewhere path cluster after)
    (bytes : ∀ x, byteAt deployment after path x = written[x]?) :
    Represents deployment (Function.update fs path (some (.file permissions written))) after := by
  have stands := represents.entries path
  rw [named] at stands
  obtain ⟨cell, md, found, holds, mode, size⟩ := stands
  have same : md.size = .ofNat 64 content.length := by
    rw [← show md.size.toNat = content.length from size, BitVec.ofNat_toNat, BitVec.setWidth_eq]
  have length : (BitVec.ofNat 64 written.length).toNat = written.length := Words.toNat_ofNat (by omega)
  refine represents.change plain (represents.isFilePath plain named).notRoot healthy (unlisted_update (fun key other => ?_) changed) ?_
    elsewhere bytes
  · rw [MetadataDb.lookup_merge, if_neg other]
  · refine ⟨cell.merge operand.serialize, { md with size := .ofNat 64 written.length }, ?_, .merge holds (same ▸ applied) ?_, mode, length⟩
    · rw [changed, Function.update_self, MetadataDb.lookup_merge, if_pos rfl, MetadataDb.cell_of_lookup found]
    · rw [Signed, length]
      exact small

theorem Represents.cut (represents : Represents deployment fs cluster) (plain : Plain path)
    (named : fs path = some (.file permissions content)) {length : Nat} (ordered : length ≤ content.length)
    (reach : content.length ≤ length ∨ content.length ≤ chunksize ∨ length = 0 ∧ content.length ≤ (2 ^ 32 - 1) * chunksize) :
    ∃ after, (Cluster.server deployment pools).exec
        (gkfsTruncateTo client path (.ofNat 64 content.length) (.ofNat 64 length)) cluster = (some (.ok ()), after) ∧
      Represents deployment (Function.update fs path (some (.file permissions (content.take length)))) after := by
  have fits := represents.length_lt named
  rcases Nat.lt_or_eq_of_le ordered with less | rfl
  · have small : length < chunksize := by
      rcases reach with long | one | ⟨rfl, _⟩
      · omega
      · omega
      · decide
    have covered : Covered content.length length := by
      simp only [chunksize] at reach small
      constructor <;> simp only [chunksize] <;> omega
    have cut : cutAt length = length := by
      rw [cutAt, boundary, Nat.div_eq_of_lt small, if_neg (fun both => absurd both.1 (by decide)), Nat.mod_eq_of_lt]
      exact Nat.lt_of_lt_of_le small (Nat.le_mul_of_pos_left _ (by decide))
    have ready : ∀ c ≤ (content.length - 1) / chunksize, Ready (cluster.storage (deployment.chunkBackend path c)) path length := by
      intro c inside
      have below : c * chunksize < content.length := by
        have := (Nat.le_div_iff_mul_le (by decide : 0 < chunksize)).mp inside
        omega
      have here := represents.chunk plain named below
      obtain ⟨chunk, found⟩ := Option.isSome_iff_exists.mp here
      refine ⟨(represents.healthy.stores _).dir_of_stored found, fun cuts => ?_⟩
      -- a cut inside of a chunk is made only where the file has no other chunk
      have first : c = 0 := by
        simp only [chunksize] at reach inside cuts
        omega
      rw [boundary, Nat.div_eq_of_lt small, Nat.zero_mod, ← first]
      exact here
    obtain ⟨after, ran, healthy, changed, elsewhere, bytes⟩ := @exec_gkfsTruncateTo_ready deployment path pools cluster length
      content.length client (represents.isFilePath plain named) less fits covered small represents.healthy ready
    have shorter : (content.take length).length = length := List.length_take_of_le ordered
    refine ⟨after, ran, represents.rewrite plain named changed ?_ (by omega) healthy elsewhere fun x => ?_⟩
    · have smaller : BitVec.ofNat 64 length < BitVec.ofNat 64 content.length := by
        rw [BitVec.lt_def, Words.toNat_ofNat (by omega), Words.toNat_ofNat (by omega)]
        exact less
      simp [effect, smaller, shorter, bind, Except.bind, pure, Except.pure]
    · have before := represents.bytes path plain x
      rw [contentAt, named, Option.elim_some, Node.content] at before
      have byte := bytes x
      rw [before, Cut, cut] at byte
      rw [List.getElem?_take]
      by_cases kept : x < length
      · rw [List.getElem?_eq_getElem (by omega)] at byte ⊢
        simp only [kept, if_true, reduceCtorEq, false_and, or_false] at byte ⊢
        exact byte.elim id And.right
      · rw [if_neg kept] at byte ⊢
        rcases byte with gone | ⟨behind, same⟩
        · exact gone
        · rw [same, List.getElem?_eq_none_iff]
          by_contra inside
          exact absurd (Nat.div_le_div_right (c := chunksize) (by omega : x ≤ content.length - 1)) (by omega)
  · refine ⟨cluster, ?_, ?_⟩
    · rw [gkfsTruncateTo_asserted client path (Nat.le_refl _) fits, if_pos rfl]
      rfl
    · rw [List.take_length, ← named, Function.update_eq_self]
      exact represents

theorem Represents.pwrite (represents : Represents deployment fs cluster) (caller : Caller deployment) (plain : Plain path)
    {data : List Byte} {offset : Nat} (admissible : (Call.pwrite data offset).Admissible deployment fs path) :
    Simulates caller fs path (.pwrite data offset) cluster := by
  obtain ⟨short, permissions, content, named, some_data, reached, bounded⟩ := admissible
  have file := represents.storable plain short named
  have small := represents.length_lt named
  have fits : offset + data.length < 2 ^ 63 := by
    simp only [chunksize] at bounded
    omega
  let call : Write deployment := ⟨caller.client, false, offset, data, some_data, fits, caller.pools⟩
  obtain ⟨after, ran, healthy, announced, wrote⟩ := @exec_gkfsPwrite deployment path call.range data caller.pools cluster caller.client file
    caller.complete rfl (narrow_of_bounded bounded) false represents.healthy
  have length := @ByteFile.length_pwrite _ _ content data some_data offset
  refine ⟨_, after, exec_reply _ ran, ?_, ?_⟩
  · simp only [FileSystem.perform, named, Except.map, Agrees]
    exact Words.toNat_ofNat (by show data.length < _; omega)
  · simp only [FileSystem.perform, named]
    rw [announce, caller.client.locateFileMetadata_eq] at announced
    refine represents.rewrite plain named announced ?_ (by omega) healthy (fun backend dir c other => ?_) fun x => ?_
    · refine congrArg Except.ok (BitVec.eq_of_toNat_eq ?_)
      have last : (BitVec.ofNat 64 (call.range.offset + call.range.size)).toNat = offset + data.length :=
        Words.toNat_ofNat (show offset + data.length < 2 ^ 64 by omega)
      rw [if_neg Bool.false_ne_true, Words.toNat_larger, last, length, Words.toNat_ofNat (by omega), Words.toNat_ofNat (by omega)]
    · rw [wrote, if_neg fun here => other here.1]
    · have before := represents.bytes path plain x
      rw [contentAt, named, Option.elim_some, Node.content] at before
      have byte : if offset ≤ x ∧ x < offset + data.length then byteAt deployment after path x = data[x - offset]?
          else byteAt deployment after path x = content[x]? ∨ (content[x]? = none ∧ byteAt deployment after path x = some 0) :=
        before ▸ byteAt_overwritten rfl wrote x
      have present : (byteAt deployment after path x).isSome ↔ content[x]?.isSome ∨
          (x < offset + data.length ∧ offset < (x / chunksize + 1) * chunksize) :=
        before ▸ SparseReads.isSome_byteAt_overwritten rfl wrote x
      rw [ByteFile.getElem?_pwrite some_data]
      by_cases covered : offset ≤ x ∧ x < offset + data.length
      · rw [if_pos covered] at byte
        rw [if_neg (by omega), if_pos covered.2, byte]
      · rw [if_neg covered] at byte
        rcases byte with same | ⟨missing, zero⟩
        · by_cases early : x < offset
          · rw [if_pos early, if_pos (by omega), same]
          · rw [if_neg early, if_neg (by omega), same]
        · -- there is no gap before the range for the kernel to fill
          rw [zero, missing] at present
          have behind := List.getElem?_eq_none_iff.mp missing
          simp only [Option.isSome_some, Option.isSome_none, Bool.false_eq_true, false_or, true_iff] at present
          omega

theorem Represents.pread (represents : Represents deployment fs cluster) (caller : Caller deployment) (plain : Plain path)
    {buf : List Byte} {offset : Nat} (admissible : (Call.pread buf offset).Admissible deployment fs path) :
    Simulates caller fs path (.pread buf offset) cluster := by
  obtain ⟨short, permissions, content, named, some_buf, bounded⟩ := admissible
  have positive := List.length_pos_iff.mpr some_buf
  let range : IoRange := ⟨offset, buf.length, positive, by simp only [chunksize] at bounded; omega⟩
  have ran := @SparseReads.exec_gkfsPread_filled deployment path cluster range caller.client (represents.storable plain short named)
    caller.pools caller.answers represents.healthy buf rfl
  have byte : ∀ i < buf.length, readAt deployment cluster path (offset + i) = content[offset + i]? := by
    intro i inside
    rw [readAt, Nat.mod_eq_of_lt (by omega), represents.bytes path plain, contentAt, named]
    rfl
  have count : ((List.range buf.length).countP fun i => (readAt deployment cluster path (offset + i)).isSome) =
      min buf.length (content.length - offset) := by
    rw [← SparseReads.countP_lt]
    refine List.countP_congr fun i member => ?_
    rw [byte i (List.mem_range.mp member)]
    simp
  have bytes : SparseReads.filled deployment cluster path offset buf = ByteFile.fill content offset buf := by
    apply List.ext_getElem?
    intro i
    by_cases inside : i < buf.length
    · rw [SparseReads.getElem?_filled _ _ _ _ inside, byte i inside, ByteFile.getElem?_fill _ _ inside]
    · rw [List.getElem?_eq_none (by simp [SparseReads.filled]; omega), List.getElem?_eq_none (by simp; omega)]
  have size : (BitVec.ofNat 64 ((List.range buf.length).countP fun i => (readAt deployment cluster path (offset + i)).isSome)).toNat =
      min buf.length (content.length - offset) := by
    rw [count]
    simp only [chunksize] at bounded
    exact Words.toNat_ofNat (by omega)
  have replied : caller.exec path (.pread buf offset) cluster =
      (some (.ok (.read (min buf.length (content.length - offset)) (ByteFile.fill content offset buf))), cluster) := by
    rw [Caller.exec, Caller.run, Program.bind_eq, Server.exec_bind, ran]
    exact congrArg₂ (fun count out => (some (Except.ok (Reply.read count out)), cluster)) size bytes
  refine ⟨_, cluster, replied, ?_, ?_⟩
  · simp only [FileSystem.perform, named, Agrees, and_self]
  · simpa only [FileSystem.perform, named] using represents

theorem Represents.truncate (represents : Represents deployment fs cluster) (caller : Caller deployment) (plain : Plain path)
    {length : Nat} (admissible : (Call.truncate length).Admissible deployment fs path) :
    Simulates caller fs path (.truncate length) cluster := by
  have bounded : length < 2 ^ 63 := by
    rw [Call.Admissible] at admissible
    split at admissible
    next => exact admissible
    next => exact admissible.elim
    next => exact admissible.1
  have positive : (BitVec.ofNat 64 length).slt 0 = false := by
    rw [← Bool.not_eq_true, BitVec.slt_iff_toInt_lt, BitVec.toInt_eq_toNat_of_lt (by rw [Words.toNat_ofNat (by omega)]; omega)]
    exact Int.not_lt.mpr (Int.natCast_nonneg _)
  cases named : fs path with
  | none =>
    have ran : (Cluster.server deployment caller.pools).exec (gkfsTruncate caller.client path (.ofNat 64 length)) cluster =
        (some (.error Errno.enoent), cluster) := by
      rw [gkfsTruncate, positive, if_neg Bool.false_ne_true, Program.bind_eq, Server.exec_bind,
        exec_getMetadata_missing represents.healthy.up (represents.missing named)]
      rfl
    exact represents.refused (exec_reply _ ran) (by simp only [FileSystem.perform, named])
  | some node =>
    rw [Call.Admissible, named] at admissible
    cases node with
    | directory permissions => exact admissible.elim
    | file permissions content =>
      obtain ⟨md, asked, _, size⟩ := @Represents.exec_getMetadata deployment caller.pools caller.client fs _ cluster _ represents named true
      rw [Node.content] at size
      have fits := represents.length_lt named
      have larger : md.size < .ofNat 64 length ↔ content.length < length := by
        rw [size, BitVec.lt_def, Words.toNat_ofNat (by omega), Words.toNat_ofNat (by omega)]
      have started : (Cluster.server deployment caller.pools).exec (gkfsTruncate caller.client path (.ofNat 64 length)) cluster =
          if content.length < length then (some (.error Errno.einval), cluster)
          else (Cluster.server deployment caller.pools).exec
            (gkfsTruncateTo caller.client path (.ofNat 64 content.length) (.ofNat 64 length)) cluster := by
        rw [gkfsTruncate, positive, if_neg Bool.false_ne_true, Program.bind_eq, Server.exec_bind, asked]
        by_cases longer : content.length < length
        · simp only [larger.mpr longer, longer, if_true, Program.pure_eq, Server.exec_pure]
        · simp only [larger.not.mpr longer, longer, if_false]
          rw [size]
      by_cases longer : content.length < length
      · exact represents.refused (exec_reply _ (started.trans (if_pos longer)))
          (by simp only [FileSystem.perform, named, longer, if_true])
      · obtain ⟨after, ran, rest⟩ := @Represents.cut deployment caller.pools caller.client fs path cluster permissions content
          represents plain named length (Nat.le_of_not_lt longer) admissible.2
        exact rest.succeeded (exec_reply _ (started.trans ((if_neg longer).trans ran)))
          (by simp only [FileSystem.perform, named, longer, if_false])

end File

theorem Represents.stat (represents : Represents deployment fs cluster) (caller : Caller deployment) (path : Str) :
    Simulates caller fs path .stat cluster := by
  cases named : fs path with
  | none =>
    have ran : (Cluster.server deployment caller.pools).exec (FileOps.gkfsStat caller.client caller.config caller.hash path true) cluster =
        (some (.error Errno.enoent), cluster) := by
      rw [FileOps.gkfsStat, Program.bind_eq, Server.exec_bind, exec_getMetadata_missing represents.healthy.up (represents.missing named)]
      rfl
    exact represents.refused (exec_reply _ ran) (by simp only [FileSystem.perform, named])
  | some node =>
    obtain ⟨md, asked, mode, size⟩ :=
      @Represents.exec_getMetadata deployment caller.pools caller.client fs _ cluster _ represents named true
    obtain ⟨_, _, _, _, fits⟩ := represents.found named
    have ran : (Cluster.server deployment caller.pools).exec (FileOps.gkfsStat caller.client caller.config caller.hash path true) cluster =
        (some (.ok (FileOps.metadataToStat caller.config caller.hash path md)), cluster) := by
      rw [FileOps.gkfsStat, Program.bind_eq, Server.exec_bind, asked]
      rfl
    have specified : fs.perform path .stat = (.ok (.attributes node.mode node.content.length), fs) := by
      simp only [FileSystem.perform, named]
    rw [Simulates, specified]
    refine ⟨_, cluster, exec_reply _ ran, ⟨mode, ?_⟩, represents⟩
    simp only [FileOps.metadataToStat, mode, node.isLnk_mode, Bool.false_eq_true, if_false, size]
    exact Words.toNat_ofNat (by omega)

end GekkoFwd.Proofs.FileSystemRefinement
