import GekkoFwd.Proofs.WriteOutcome

/-! Reading returns what was written last. The chunk stores of all backends are seen as
one sequence of bytes, in which a write replaces a range and a read copies one. -/

namespace GekkoFwd.Proofs.ReadAfterWrite
open ChunkPartition IoPartition StorageSpec DataPath WriteOutcome SrvSplit

variable {deployment : Deployment} {path : Str}

/-- The byte that is held at an offset of a file, `none` in a hole or past the end. -/
def byteAt (deployment : Deployment) (cluster : Cluster) (path : Str) (x : Nat) : Option Byte :=
  held (cluster.storage (deployment.chunkBackend path (x / chunksize))) path x

/-- The byte that a read finds for an offset. Chunk numbers are cut to 32 bits. -/
def readAt (deployment : Deployment) (cluster : Cluster) (path : Str) (x : Nat) : Option Byte :=
  byteAt deployment cluster path (x % (2 ^ 32 * chunksize))

theorem readAt_eq (cluster : Cluster) (x : Nat) : readAt deployment cluster path x =
    (stored (cluster.storage (deployment.chunkBackend path (x / chunksize))) (dirName path) (x / chunksize % 2 ^ 32)).bind
      fun content => content[x % chunksize]? := by
  rw [readAt, byteAt, held, Nat.mod_mul_left_div_self, Nat.mod_mul_left_mod, Deployment.chunkBackend_mod]

section Bytes
variable {range : IoRange} {data : List Byte}

theorem getElem?_slice {c index : Nat} (inside : index < range.split.size c) :
    (slice range data c)[index]? = data[range.split.origin c + index]? := by
  rw [slice, ByteFile.getElem?_pread, if_pos inside]

theorem slice_ne_nil (whole : data.length = range.size) {c : Nat} (inside : range.split.first ≤ c ∧ c ≤ range.split.last) :
    slice range data c ≠ [] := by
  have length := length_slice whole inside
  have positive := range.split.size_pos inside.1 inside.2
  exact List.ne_nil_of_length_pos (by omega)

theorem inside_of_mem {x : Nat} (least : range.offset ≤ x) (most : x < range.offset + range.size) :
    range.split.first ≤ x / chunksize ∧ x / chunksize ≤ range.split.last :=
  ⟨Nat.div_le_div_right least, Nat.div_le_div_right (by simp; omega)⟩

theorem div_mod_of_piece {c k : Nat} (inside : k < range.split.size c) :
    (range.offset + (range.split.origin c + k)) / chunksize = c ∧
      (range.offset + (range.split.origin c + k)) % chunksize = range.split.pos c + k := by
  have places := range.split.start_add_origin c
  have fits := range.split.pos_add_size_le c
  simp only [range.split_start, range.split_block] at places fits
  have x : range.offset + (range.split.origin c + k) = range.split.pos c + k + c * chunksize := by omega
  rw [x, Nat.add_mul_div_right _ _ (by decide), Nat.add_mul_mod_self_right, Nat.div_eq_of_lt (by omega), Nat.mod_eq_of_lt (by omega)]
  exact ⟨Nat.zero_add _, rfl⟩

/-- One chunk after its slice has been stored: the range has the new bytes, what was
there outside of it stays, and a gap before the range is filled with zeros. -/
theorem getElem?_written (whole : data.length = range.size) (old : Option (List Byte)) {c index : Nat}
    (inside : range.split.first ≤ c ∧ c ≤ range.split.last) (small : index < chunksize) :
    if range.offset ≤ c * chunksize + index ∧ c * chunksize + index < range.offset + range.size
    then (written old (slice range data c) (range.split.pos c))[index]? = data[c * chunksize + index - range.offset]?
    else (written old (slice range data c) (range.split.pos c))[index]? = old.bind (·[index]?) ∨
      (old.bind (·[index]?) = none ∧ (written old (slice range data c) (range.split.pos c))[index]? = some 0) := by
  have length := length_slice whole inside
  have piece := range.split.mem_piece_pos c small
  have places := range.split.start_add_origin c
  simp only [range.split_start, range.split_block, range.split_length] at piece places
  have content : old.bind (·[index]?) = (old.getD [])[index]? := by cases old <;> rfl
  rw [written, ByteFile.getElem?_pwrite (slice_ne_nil whole inside), length, content]
  split
  next holds =>
    have reached := piece.mpr holds
    rw [if_neg (by omega), if_pos reached.2, getElem?_slice (by omega)]
    congr 1
    omega
  next misses =>
    have outside := mt piece.mp misses
    by_cases before : index < range.split.pos c
    · rw [if_pos before]
      by_cases short : index < (old.getD []).length
      · rw [if_pos short]
        exact .inl rfl
      · rw [if_neg short]
        exact .inr ⟨List.getElem?_eq_none (by omega), rfl⟩
    · rw [if_neg before, if_neg (by omega)]
      exact .inl rfl

theorem byteAt_overwritten {before after : Cluster} (whole : data.length = range.size)
    (wrote : Overwritten deployment path range data before after) (x : Nat) :
    if range.offset ≤ x ∧ x < range.offset + range.size
    then byteAt deployment after path x = data[x - range.offset]?
    else byteAt deployment after path x = byteAt deployment before path x ∨
      (byteAt deployment before path x = none ∧ byteAt deployment after path x = some 0) := by
  have decomposed := Nat.div_add_mod' x chunksize
  have small : x % chunksize < chunksize := Nat.mod_lt _ (by decide)
  by_cases inside : range.split.first ≤ x / chunksize ∧ x / chunksize ≤ range.split.last
  · have chunk := getElem?_written whole
      (stored (before.storage (deployment.chunkBackend path (x / chunksize))) (dirName path) (x / chunksize)) inside small
    rw [decomposed] at chunk
    have changed : byteAt deployment after path x = (written (stored
        (before.storage (deployment.chunkBackend path (x / chunksize))) (dirName path) (x / chunksize))
        (slice range data (x / chunksize)) (range.split.pos (x / chunksize)))[x % chunksize]? := by
      rw [byteAt, held, wrote, if_pos ⟨rfl, inside, rfl⟩, Option.bind_some]
    rw [changed]
    exact chunk
  · have outside : ¬ (range.offset ≤ x ∧ x < range.offset + range.size) := fun holds => inside (inside_of_mem holds.1 holds.2)
    rw [if_neg outside]
    left
    rw [byteAt, held, wrote, if_neg fun holds => inside holds.2.1, byteAt, held]

end Bytes

section Read
variable {range : IoRange} {expected : List Byte} {mine : Nat → Bool} {input : DataIn} {storage : Storage}

/-- The store has the expected bytes of a chunk. -/
def Holds (range : IoRange) (expected : List Byte) (path : Str) (storage : Storage) (c : Nat) : Prop :=
  ∃ content, stored storage (dirName path) c = some content ∧
    ByteFile.pread content (range.split.size c) (range.split.pos c) = slice range expected c

/-- The kernel may cut reads short but does not fail them. -/
def Answers (pool : IoPool) : Prop := ∀ chnkId round, ∃ most, (pool.pread chnkId) round = .ok most

theorem frugalPool_answers : Answers frugalPool := fun _ _ => ⟨1, rfl⟩

/-- What a task gets of its chunk, whose number is cut to 32 bits. -/
def reading (range : IoRange) (path : Str) (storage : Storage) (c : Nat) : Except Int (List Byte) :=
  match stored storage (dirName path) (c % 2 ^ 32) with
  | some content => .ok (ByteFile.pread content (range.split.size c) (range.split.pos c))
  | none => .error (-LocalFs.Errno.enoent.value)

/-- The bytes of it; a missing chunk has none. -/
def found (range : IoRange) (path : Str) (storage : Storage) (c : Nat) : List Byte :=
  ByteFile.pread ((stored storage (dirName path) (c % 2 ^ 32)).getD []) (range.split.size c) (range.split.pos c)

theorem reading_cases (range : IoRange) (path : Str) (storage : Storage) (c : Nat) :
    reading range path storage c = .ok (found range path storage c) ∨
      (reading range path storage c = .error (-LocalFs.Errno.enoent.value) ∧ found range path storage c = []) := by
  unfold reading found
  cases stored storage (dirName path) (c % 2 ^ 32) with
  | some content => exact .inl rfl
  | none => exact .inr ⟨rfl, by simp [ByteFile.pread]⟩

theorem length_found_le (range : IoRange) (path : Str) (storage : Storage) (c : Nat) :
    (found range path storage c).length ≤ range.split.size c := by
  rw [found, ByteFile.length_pread]
  exact Nat.min_le_left _ _

theorem readFileAbt_spec {schedule : ChunkStorage.PreadSchedule} {packed c : Nat} (valid : WellFormed storage)
    (file : Storable path) (ndebug : Bool) (answers : ∀ round, ∃ most, schedule round = .ok most)
    (inside : range.split.first ≤ c ∧ c ≤ range.split.last) :
    Daemon.readFileAbt ndebug path schedule (taskAt range.split packed c) storage = some (reading range path storage c) := by
  obtain ⟨chnkId, size, off, _⟩ := @toNat_taskAt _ _ packed inside.1 inside.2
  have fits := range.split.pos_add_size_le c
  have positive := range.split.size_pos inside.1 inside.2
  rw [range.split_block] at fits
  rw [Daemon.readFileAbt, SrvSplit.Task.chunkId, chnkId, size, off,
    readChunk_spec valid file ndebug (Nat.mod_lt _ (by decide)) answers (by omega), reading]
  cases stored storage (dirName path) (c % 2 ^ 32) <;> rfl

/-- Missing chunks and empty reads are passed over, everything else counts and is pushed. -/
theorem awaitReads_spec (bulk : List Byte) (tasks : List Task) (read : Task → Except Int (List Byte)) (got : Task → List Byte)
    (answered : ∀ task ∈ tasks, read task = .ok (got task) ∨ (read task = .error (-LocalFs.Errno.enoent.value) ∧ got task = []))
    (kept : ∀ task ∈ tasks, ByteFile.pread bulk (got task).length task.localOffset.toNat = got task) :
    Daemon.awaitReads bulk (tasks.map fun task => (task, read task)) =
      (0, .ofNat 64 (tasks.map fun task => (got task).length).sum,
        (tasks.filter fun task => got task != []).map fun task => (task.originOffset.toNat, got task)) := by
  induction tasks with
  | nil => rfl
  | cons task tasks ih =>
    have rest := ih (fun other member => answered other (List.mem_cons_of_mem _ member))
      fun other member => kept other (List.mem_cons_of_mem _ member)
    rw [List.map_cons, List.map_cons, List.sum_cons, List.filter_cons]
    rcases answered task List.mem_cons_self with ok | ⟨missing, nothing⟩
    · by_cases empty : got task = []
      · rw [ok, Daemon.awaitReads, empty, if_pos List.length_nil, rest]
        simp
      · rw [ok, Daemon.awaitReads, if_neg (mt List.length_eq_zero_iff.mp empty), rest, kept task List.mem_cons_self,
          if_pos (bne_iff_ne.mpr empty), BitVec.ofNat_add]
        rfl
    · rw [missing, nothing, Daemon.awaitReads, if_pos (by rfl), rest]
      simp

theorem chunk_of_task {task : Task} (member : task ∈ tasksFrom range.split 0 (range.chunks mine)) :
    ∃ before c after, range.chunks mine = before ++ c :: after ∧ task = taskAt range.split (range.split.total before) c ∧
      (range.split.first ≤ c ∧ c ≤ range.split.last) ∧ task.chnkId.toNat = c := by
  obtain ⟨before, c, after, parts, rfl⟩ := mem_tasksFrom.mp member
  have here := chunks_inside range mine c (by simp [parts])
  rw [Nat.zero_add]
  exact ⟨before, c, after, parts, rfl, here, (toNat_taskAt here.1 here.2).1⟩

/-- What all tasks of a request have read. -/
def readings (range : IoRange) (mine : Nat → Bool) (path : Str) (storage : Storage) : List (Task × Except Int (List Byte)) :=
  (tasksFrom range.split 0 (range.chunks mine)).map fun task => (task, reading range path storage task.chnkId.toNat)

theorem mapM_readFileAbt {pool : IoPool} (file : Storable path) (answers : Answers pool) (ndebug : Bool) (valid : WellFormed storage) :
    ((tasksFrom range.split 0 (range.chunks mine)).mapM fun task =>
      (Daemon.readFileAbt ndebug path (pool.pread task.chnkId) task storage).map fun read => (task, read)) =
      some (readings range mine path storage) := by
  refine MapM.mapM_eq_pure_map fun task member => ?_
  obtain ⟨before, c, after, _, rfl, here, chnkId⟩ := chunk_of_task member
  rw [readFileAbt_spec valid file _ (answers _) here, chnkId]
  rfl

theorem pread_fillBulk (announced : Announces range mine input) {before after : List Nat} {c : Nat}
    (parts : range.chunks mine = before ++ c :: after) :
    ByteFile.pread (Daemon.fillBulk input (readings range mine path storage)) (found range path storage c).length
      (range.split.total before) = found range path storage c := by
  have stores : Daemon.fillBulk input (readings range mine path storage) = ByteFile.pwriteAll
      (List.replicate (range.split.total (range.chunks mine)) 0) ((tasksFrom range.split 0 (range.chunks mine)).map fun task =>
        (task.buf.toNat, found range path storage task.chnkId.toNat)) := by
    rw [Daemon.fillBulk, announced.totalChunkSize, Words.toNat_ofNat (range.total_chunks_lt mine), readings, List.map_map]
    refine congrArg _ (List.map_congr_left fun task _ => ?_)
    rcases reading_cases range path storage task.chnkId.toNat with ok | ⟨missing, nothing⟩
    · simp only [Function.comp_apply, ok]
    · simp only [Function.comp_apply, missing, nothing]
  rw [stores]
  refine ByteFile.pread_packed (fun c _ => length_found_le range path storage c) (fun store => ?_) parts
  rw [List.mem_map]
  constructor
  · rintro ⟨task, member, rfl⟩
    obtain ⟨first, other, rest, parts, rfl, _, chnkId⟩ := chunk_of_task member
    exact ⟨first, other, rest, parts, by rw [(toNat_localOffset parts).1, chnkId]; rfl⟩
  · rintro ⟨first, other, rest, parts, rfl⟩
    have here := chunks_inside range mine other (by simp [parts])
    refine ⟨taskAt range.split (range.split.total first) other, mem_tasksFrom.mpr ⟨first, other, rest, parts, by rw [Nat.zero_add]⟩, ?_⟩
    rw [(toNat_localOffset parts).1, (toNat_taskAt here.1 here.2).1]
    rfl

/-- One request, whatever the store has of its chunks. -/
theorem rpcSrvRead_spec {pool : IoPool} {final : State} (file : Storable path) (answers : Answers pool)
    (announced : Announces range mine input) (named : input.path = path)
    (ran : run deployment.strHash deployment.forwarding input = some final)
    (tasks : final.tasks = tasksFrom range.split 0 (range.chunks mine)) (valid : WellFormed storage) :
    Daemon.rpcSrvRead deployment pool input storage =
      some (0, .ofNat 64 ((range.chunks mine).map fun c => (found range path storage c).length).sum,
        ((range.chunks mine).filter fun c => found range path storage c != []).map fun c =>
          (range.split.origin c, found range path storage c)) := by
  have ids := toNat_chnkId_tasksFrom (chunks_inside range mine) 0
  have kept : ∀ task ∈ tasksFrom range.split 0 (range.chunks mine),
      ByteFile.pread (Daemon.fillBulk input (readings range mine path storage)) (found range path storage task.chnkId.toNat).length
        task.localOffset.toNat = found range path storage task.chnkId.toNat := by
    intro task member
    obtain ⟨before, c, after, parts, rfl, _, chnkId⟩ := chunk_of_task member
    rw [chnkId, (toNat_localOffset parts).2]
    exact pread_fillBulk announced parts
  have pushes : ((tasksFrom range.split 0 (range.chunks mine)).filter fun task => found range path storage task.chnkId.toNat != []).map
        (fun task => (task.originOffset.toNat, found range path storage task.chnkId.toNat)) =
      ((range.chunks mine).filter fun c => found range path storage c != []).map fun c =>
        (range.split.origin c, found range path storage c) := by
    conv_rhs => rw [← ids, List.filter_map, List.map_map]
    refine List.map_congr_left fun task member => ?_
    obtain ⟨before, c, after, _, rfl, here, chnkId⟩ := chunk_of_task (List.mem_of_mem_filter member)
    rw [Function.comp_apply, chnkId, (toNat_taskAt here.1 here.2).2.2.2]
  rw [Daemon.rpcSrvRead, ran, named]
  simp only [Option.bind_eq_bind, Option.bind_some, tasks, mapM_readFileAbt file answers deployment.ndebug valid, Option.pure_def]
  refine congrArg some ((awaitReads_spec _ _ _ _ (fun task _ => reading_cases range path storage task.chnkId.toNat) kept).trans ?_)
  rw [pushes, ← ids, List.map_map, ids]
  rfl

variable {client : Client deployment} {targets : List Nat} {request : Nat → DataIn} {final : Nat → State}
  {pools : Nat → IoPool} {cluster : Cluster}

/-- What a read gets of a chunk from the store that holds it. -/
def foundAt (deployment : Deployment) (cluster : Cluster) (path : Str) (range : IoRange) (c : Nat) : List Byte :=
  found range path (cluster.storage (deployment.chunkBackend path c)) c

/-- What a target answers to its part of a read. -/
def readAnswer (client : Client deployment) (cluster : Cluster) (path : Str) (range : IoRange) (target : Nat) :
    Int × Word × List (Nat × List Byte) :=
  (0, .ofNat 64 ((range.chunks fun c => decide (client.locateData path c = target)).map fun c =>
      (foundAt deployment cluster path range c).length).sum,
    ((range.chunks fun c => decide (client.locateData path c = target)).filter fun c =>
      foundAt deployment cluster path range c != []).map fun c => (range.split.origin c, foundAt deployment cluster path range c))

/-- The read requests of one I/O change nothing and bring what there is. -/
theorem handleAll_readData (file : Storable path) (answers : ∀ host, Answers (pools host))
    (dispatch : Dispatch client path range targets request final) (healthy : Healthy cluster) (hosts : List Nat)
    (among : hosts ⊆ targets) :
    (Cluster.server deployment pools).handleAll
        (hosts.map fun target => (target, Request.readData (request target))) cluster =
      (hosts.map fun target => some (readAnswer client cluster path range target), cluster) := by
  induction hosts with
  | nil => rfl
  | cons target hosts ih =>
    have member : target ∈ targets := among List.mem_cons_self
    have here : ∀ c ∈ range.chunks fun c => decide (client.locateData path c = target),
        found range path (cluster.storage (deployment.backend target)) c = foundAt deployment cluster path range c := by
      intro c mine
      rw [foundAt, ← client.backend_locateData, of_decide_eq_true (range.mem_chunks.mp mine).2]
    have answered := rpcSrvRead_spec file (answers target) (dispatch.addressed target).announces
      (dispatch.addressed target).path (dispatch.runs target member) (dispatch.tasks target member)
      (healthy.stores (deployment.backend target))
    have counts := List.map_congr_left fun c mine => congrArg List.length (here c mine)
    have pushes : ((range.chunks fun c => decide (client.locateData path c = target)).filter fun c =>
        found range path (cluster.storage (deployment.backend target)) c != []).map (fun c =>
          (range.split.origin c, found range path (cluster.storage (deployment.backend target)) c)) =
        (readAnswer client cluster path range target).2.2 := by
      rw [List.filter_congr fun c mine => by rw [here c mine]]
      exact List.map_congr_left fun c kept => by rw [here c (List.mem_of_mem_filter kept)]
    rw [counts, pushes] at answered
    have served : (Cluster.server deployment pools).handle target (.readData (request target)) cluster =
        (some (readAnswer client cluster path range target), cluster) :=
      Cluster.handle_of_some (healthy.up target) (by simp only [Cluster.serve, answered, readAnswer])
    simp only [List.map_cons, RpcProgram.Server.handleAll, served, ih fun other later => among (List.mem_cons_of_mem _ later)]

theorem collectSizes_readAnswer (dispatch : Dispatch client path range targets request final) :
    ClientOps.collectSizes (targets.map fun target =>
      some ((readAnswer client cluster path range target).1, (readAnswer client cluster path range target).2.1)) =
      .ok (.ofNat 64 (range.split.blocks.map fun c => (foundAt deployment cluster path range c).length).sum) := by
  rw [← BlockSplit.sum_owners (client.locateData path) (fun c => (foundAt deployment cluster path range c).length) dispatch.distinct
    fun c member => (dispatch.mem_targets _).mpr ⟨c, range.split.mem_blocks.mp member, rfl⟩, ← collectSizes_ok, List.map_map]
  rfl

theorem mem_pushes (dispatch : Dispatch client path range targets request final) {push : Nat × List Byte} :
    push ∈ targets.flatMap (fun target => (readAnswer client cluster path range target).2.2) ↔
      ∃ c ∈ range.split.blocks, foundAt deployment cluster path range c ≠ [] ∧
        push = (range.split.origin c, foundAt deployment cluster path range c) := by
  simp only [readAnswer, List.mem_flatMap, List.mem_map, List.mem_filter, range.mem_chunks, range.split.mem_blocks, bne_iff_ne,
    decide_eq_true_eq]
  constructor
  · rintro ⟨_, _, c, ⟨⟨inside, _⟩, some_found⟩, rfl⟩
    exact ⟨c, inside, some_found, rfl⟩
  · rintro ⟨c, inside, some_found, rfl⟩
    exact ⟨_, (dispatch.mem_targets _).mpr ⟨c, inside, rfl⟩, c, ⟨⟨inside, rfl⟩, some_found⟩, rfl⟩

/-- The caller's buffer has what was found, and what it had before everywhere else. -/
def Receives (deployment : Deployment) (cluster : Cluster) (path : Str) (range : IoRange) (buf expected : List Byte) : Prop :=
  ∀ c ∈ range.split.blocks, ∀ k < range.split.size c, expected[range.split.origin c + k]? =
    (foundAt deployment cluster path range c)[k]?.or buf[range.split.origin c + k]?

theorem Receives.agree {buf expected : List Byte} (receives : Receives deployment cluster path range buf expected)
    (whole : expected.length = range.size) {c : Nat} (block : c ∈ range.split.blocks) :
    range.split.origin c + (foundAt deployment cluster path range c).length ≤ expected.length ∧
      foundAt deployment cluster path range c =
        ByteFile.pread expected (foundAt deployment cluster path range c).length (range.split.origin c) := by
  have short : (foundAt deployment cluster path range c).length ≤ range.split.size c := length_found_le _ _ _ _
  have inside := range.split.mem_blocks.mp block
  have fits := range.split.origin_add_size_le inside.1 inside.2
  rw [range.split_length] at fits
  refine ⟨by omega, List.ext_getElem? fun k => ?_⟩
  rw [ByteFile.getElem?_pread]
  split
  next small => rw [receives c block k (by omega), List.getElem?_eq_getElem small, Option.some_or]
  next large => exact List.getElem?_eq_none (by omega)

theorem receive_readAnswer (dispatch : Dispatch client path range targets request final) {buf expected : List Byte}
    (room : buf.length = range.size) (whole : expected.length = range.size)
    (receives : Receives deployment cluster path range buf expected) :
    ClientOps.receive buf (targets.map fun target => some (readAnswer client cluster path range target)) = expected := by
  obtain ⟨length, reads⟩ := @ByteFile.pwriteAll_spec _ _ buf expected
    (targets.flatMap fun target => (readAnswer client cluster path range target).2.2) (room.trans whole.symm) (by
      intro push member
      obtain ⟨c, block, _, rfl⟩ := (mem_pushes dispatch).mp member
      exact receives.agree whole block)
  simp only [ClientOps.receive, List.flatMap_map, Option.map_some, Option.getD_some]
  apply List.ext_getElem?
  intro index
  by_cases small : index < expected.length
  · refine (reads index small).trans (ite_eq_left_iff.mpr fun uncovered => ?_)
    have piece := range.split.mem_piece_origin ((range.offset + index) / chunksize) index
    simp only [range.split_start, range.split_block, range.split_length, true_and] at piece
    obtain ⟨least, most⟩ := piece.mpr (by omega)
    have block := range.split.mem_blocks.mpr (inside_of_mem (by omega : range.offset ≤ range.offset + index) (by omega))
    have byte := receives _ block (index - range.split.origin ((range.offset + index) / chunksize)) (by omega)
    rw [Nat.add_sub_cancel' least] at byte
    -- a byte of the chunk at this place would have been pushed
    have missing : (foundAt deployment cluster path range ((range.offset + index) / chunksize)).length ≤
        index - range.split.origin ((range.offset + index) / chunksize) := by
      by_contra present
      refine uncovered ⟨_, (mem_pushes dispatch).mpr ⟨_, block, ?_, rfl⟩, least, by dsimp only; omega⟩
      exact List.ne_nil_of_length_pos (by omega)
    rw [byte, List.getElem?_eq_none missing, Option.none_or]
  · rw [List.getElem?_eq_none (by omega), List.getElem?_eq_none (by omega)]

theorem exec_gkfsPread_found (client : Client deployment) (file : Storable path) (answers : ∀ host, Answers (pools host))
    (healthy : Healthy cluster) {buf expected : List Byte} (room : buf.length = range.size) (whole : expected.length = range.size)
    (receives : Receives deployment cluster path range buf expected) :
    (Cluster.server deployment pools).exec (ClientOps.gkfsPread client path buf (.ofNat 64 range.offset)) cluster =
      (some (.ok (.ofNat 64 (range.split.blocks.map fun c => (foundAt deployment cluster path range c).length).sum), expected),
        cluster) := by
  obtain ⟨targets, request, final, dispatch⟩ := exists_dispatch client path range
  have inputs : Transfer.inputs (.forwardRead (.ofNat 64 range.offset) (.ofNat 64 buf.length)) client path =
      some (targets.map fun target => (target, request target)) := by
    rw [room]
    exact dispatch.inputs
  have answered := handleAll_readData file answers dispatch healthy targets (List.Subset.refl _)
  simp only [ClientOps.gkfsPread, ClientOps.forwardRead, inputs, Option.elim_some, List.map_map, Function.comp_def,
    RpcProgram.Server.exec_post, answered, RpcProgram.Program.pure_eq, RpcProgram.Server.exec_pure, Option.map_some,
    receive_readAnswer dispatch room whole receives, collectSizes_readAnswer dispatch]

/-- Every chunk of the range has its expected bytes where it is looked for. -/
def Available (deployment : Deployment) (path : Str) (range : IoRange) (expected : List Byte) (cluster : Cluster) : Prop :=
  ∀ c, range.split.first ≤ c ∧ c ≤ range.split.last →
    Holds range expected path (cluster.storage (deployment.chunkBackend path c)) c

/-- A read on its own whose bytes are all there. -/
theorem exec_gkfsPread (client : Client deployment) (file : Storable path) (answers : ∀ host, Answers (pools host))
    (whole : expected.length = range.size) (narrow : range.split.last < 2 ^ 32) (healthy : Healthy cluster)
    (available : Available deployment path range expected cluster) {buf : List Byte} (room : buf.length = range.size) :
    (Cluster.server deployment pools).exec (ClientOps.gkfsPread client path buf (.ofNat 64 range.offset)) cluster =
      (some (.ok (.ofNat 64 range.size), expected), cluster) := by
  have all : ∀ c ∈ range.split.blocks, foundAt deployment cluster path range c = slice range expected c := by
    intro c member
    have inside := range.split.mem_blocks.mp member
    obtain ⟨content, present, copy⟩ := available c inside
    rw [foundAt, found, Nat.mod_eq_of_lt (by omega), present, Option.getD_some, copy]
  have counted : (range.split.blocks.map fun c => (foundAt deployment cluster path range c).length).sum = range.size := by
    rw [← range.split_length, ← range.split.total_range]
    refine congrArg List.sum (List.map_congr_left fun c member => ?_)
    rw [all c member, length_slice whole (range.split.mem_blocks.mp member)]
  rw [← counted]
  refine exec_gkfsPread_found client file answers healthy room whole fun c member k small => ?_
  have inside := range.split.mem_blocks.mp member
  have fits := range.split.origin_add_size_le inside.1 inside.2
  rw [range.split_length] at fits
  rw [all c member, getElem?_slice small, List.getElem?_eq_getElem (by omega), Option.some_or]

end Read

theorem available_of_byteAt {range : IoRange} {expected : List Byte} {cluster : Cluster}
    (whole : expected.length = range.size)
    (present : ∀ i < range.size, byteAt deployment cluster path (range.offset + i) = expected[i]?) :
    Available deployment path range expected cluster := by
  intro c inside
  have positive := range.split.size_pos inside.1 inside.2
  have fits := range.split.origin_add_size_le inside.1 inside.2
  rw [range.split_length] at fits
  -- the byte at a place of the piece, looked up in the chunk
  have byte : ∀ k < range.split.size c, ((stored (cluster.storage (deployment.chunkBackend path c)) (dirName path) c).bind
      fun content => content[range.split.pos c + k]?) = expected[range.split.origin c + k]? := by
    intro k small
    obtain ⟨quotient, remainder⟩ := div_mod_of_piece small
    have there := present (range.split.origin c + k) (by omega)
    rwa [byteAt, held, quotient, remainder] at there
  cases found : stored (cluster.storage (deployment.chunkBackend path c)) (dirName path) c with
  | none =>
    have first := byte 0 positive
    rw [found, Option.bind_none, eq_comm, List.getElem?_eq_none_iff] at first
    omega
  | some content =>
    refine ⟨content, found, List.ext_getElem? fun k => ?_⟩
    rw [ByteFile.getElem?_pread, slice, ByteFile.getElem?_pread]
    split
    next small =>
      have there := byte k small
      rwa [found, Option.bind_some] at there
    next => rfl

/-- A write that the local file systems take whole. Its range ends within the chunks that
have a number of their own. -/
structure WriteCall (deployment : Deployment) extends Write deployment where
  bounded : offset + data.length ≤ 2 ^ 32 * chunksize
  complete : ∀ host, Complete (pools host)

theorem narrow_of_bounded {call : Write deployment} (bounded : call.offset + call.data.length ≤ 2 ^ 32 * chunksize) :
    call.range.split.last < 2 ^ 32 := by
  have positive := List.length_pos_iff.mpr call.some_data
  refine (Nat.div_lt_iff_lt_mul call.range.split.block_pos).mpr ?_
  simp only [IoRange.split, Write.range]
  omega

namespace WriteCall

theorem narrow (call : WriteCall deployment) : call.range.split.last < 2 ^ 32 := narrow_of_bounded call.bounded

def exec (path : Str) (cluster : Cluster) (call : WriteCall deployment) : Cluster := call.toWrite.exec path cluster

/-- The byte that the call writes at an offset. -/
def byte (call : WriteCall deployment) (x : Nat) : Option Byte :=
  if call.offset ≤ x then call.data[x - call.offset]? else none

end WriteCall

/-- Every call of a history returns its size. -/
def Succeed (path : Str) : Cluster → List (WriteCall deployment) → Prop
  | _, [] => True
  | cluster, call :: calls =>
    (call.run path cluster).1 = some (.ok (.ofNat 64 call.data.length)) ∧ Succeed path (call.exec path cluster) calls

/-- The byte most recently written at an offset by a history of calls. -/
def latest (calls : List (WriteCall deployment)) (x : Nat) : Option Byte := calls.reverse.findSome? fun call => call.byte x

theorem latest_concat (calls : List (WriteCall deployment)) (call : WriteCall deployment) (x : Nat) :
    latest (calls ++ [call]) x = (call.byte x).or (latest calls x) := by
  rw [latest, List.reverse_append, List.reverse_singleton, List.singleton_append, List.findSome?_cons]
  cases call.byte x <;> rfl

theorem WriteCall.run_spec {cluster : Cluster} (file : Storable path) (healthy : Healthy cluster)
    (call : WriteCall deployment) : (call.run path cluster).1 = some (.ok (.ofNat 64 call.data.length)) ∧
      Healthy (call.exec path cluster) ∧ Overwritten deployment path call.range call.data cluster (call.exec path cluster) := by
  obtain ⟨after, ran, kept, _, wrote⟩ := @exec_gkfsPwrite deployment path call.range call.data call.pools cluster
    call.client file call.complete rfl call.narrow call.appendFlag healthy
  have same : call.exec path cluster = after := congrArg Prod.snd ran
  rw [same]
  exact ⟨congrArg Prod.fst ran, kept, wrote⟩

theorem WriteCall.exec_spec {cluster : Cluster} (file : Storable path) (healthy : Healthy cluster)
    (call : WriteCall deployment) : Healthy (call.exec path cluster) ∧
      Overwritten deployment path call.range call.data cluster (call.exec path cluster) :=
  (call.run_spec file healthy).2

/-- A file that has been written to has a place in the local file systems. -/
theorem Succeed.storable {cluster : Cluster} (file : IsFilePath path) (healthy : Healthy cluster) {calls : List (WriteCall deployment)}
    (some_call : calls ≠ []) (succeed : Succeed path cluster calls) : Storable path := by
  obtain ⟨call, calls, rfl⟩ := List.exists_cons_of_ne_nil some_call
  refine ⟨file, Nat.le_of_not_lt fun long => ?_⟩
  have failed := @exec_gkfsPwrite_long deployment path call.range call.data call.pools cluster call.client file long rfl
    call.appendFlag healthy
  have returned := succeed.1
  rw [Write.run] at returned
  rw [show call.range.offset = call.offset from rfl] at failed
  rw [failed] at returned
  cases returned

/-- Every history on such a file succeeds. -/
theorem succeed_of_storable {cluster : Cluster} (file : Storable path) (healthy : Healthy cluster) (calls : List (WriteCall deployment)) :
    Succeed path cluster calls := by
  induction calls generalizing cluster with
  | nil => trivial
  | cons call calls ih =>
    obtain ⟨returned, kept, _⟩ := call.run_spec file healthy
    exact ⟨returned, ih kept⟩

/-- A history keeps the stores in shape, and what it wrote last is held. -/
theorem writes_held {cluster : Cluster} (file : Storable path) (healthy : Healthy cluster)
    (calls : List (WriteCall deployment)) :
    Healthy (calls.foldl (WriteCall.exec path) cluster) ∧
      ∀ x b, latest calls x = some b → byteAt deployment (calls.foldl (WriteCall.exec path) cluster) path x = some b := by
  induction calls using List.reverseRecOn with
  | nil => exact ⟨healthy, fun x b impossible => by simp [latest] at impossible⟩
  | append_singleton calls call ih =>
    obtain ⟨before, held⟩ := ih
    obtain ⟨after, wrote⟩ := call.exec_spec file before
    rw [List.foldl_concat]
    refine ⟨after, fun x b written => ?_⟩
    have bytes := byteAt_overwritten rfl wrote x
    rw [latest_concat] at written
    split at bytes
    next inRange =>
      have some_byte : x - call.offset < call.data.length := Nat.sub_lt_left_of_lt_add inRange.1 inRange.2
      have here : call.byte x = call.data[x - call.offset]? := if_pos inRange.1
      rw [here, List.getElem?_eq_getElem some_byte, Option.some_or] at written
      rw [bytes, ← written]
      exact List.getElem?_eq_getElem some_byte
    next outside =>
      have nothing : call.byte x = none := by
        rw [WriteCall.byte]
        split
        next least => exact List.getElem?_eq_none (Nat.le_sub_of_add_le' (Nat.le_of_not_lt fun most => outside ⟨least, most⟩))
        next => rfl
      rw [nothing, Option.none_or] at written
      rcases bytes with same | ⟨hole, _⟩
      · rw [same, held x b written]
      · rw [held x b written] at hole
        cases hole

theorem latest_bounded {calls : List (WriteCall deployment)} {x : Nat} (written : (latest calls x).isSome) :
    x < 2 ^ 32 * chunksize := by
  obtain ⟨b, found⟩ := Option.isSome_iff_exists.mp written
  obtain ⟨call, _, wrote⟩ := List.exists_of_findSome?_eq_some found
  have bounded := call.bounded
  rw [WriteCall.byte] at wrote
  split at wrote
  next =>
    have inside := (List.getElem?_eq_some_iff.mp wrote).1
    omega
  next => cases wrote

/-- After any history of successful writes, whoever made them, a read whose range has been written
returns its full size and the bytes most recently written. -/
theorem gkfsPread_returns_latest {cluster : Cluster} (file : IsFilePath path) (healthy : Healthy cluster)
    {calls : List (WriteCall deployment)} (succeed : Succeed path cluster calls) (reader : Client deployment) {pools : Nat → IoPool}
    (answers : ∀ host, Answers (pools host)) (offset : Nat) {buf : List Byte} (some_buf : buf ≠ [])
    (written : ∀ i < buf.length, (latest calls (offset + i)).isSome) :
    ∃ out, (Cluster.server deployment pools).exec (ClientOps.gkfsPread reader path buf (.ofNat 64 offset))
          (calls.foldl (WriteCall.exec path) cluster) =
        (some (.ok (.ofNat 64 buf.length), out), calls.foldl (WriteCall.exec path) cluster) ∧
      out.length = buf.length ∧ ∀ i < buf.length, out[i]? = latest calls (offset + i) := by
  have positive := List.length_pos_iff.mpr some_buf
  have bounded := latest_bounded (written (buf.length - 1) (by omega))
  let range : IoRange := ⟨offset, buf.length, positive, by simp only [chunksize] at bounded; omega⟩
  have narrow : range.split.last < 2 ^ 32 := by
    refine (Nat.div_lt_iff_lt_mul range.split.block_pos).mpr ?_
    simp only [IoRange.split, range]
    omega
  let expected : List Byte := (List.range buf.length).map fun i => (latest calls (offset + i)).getD 0
  have bytes : ∀ i < buf.length, expected[i]? = latest calls (offset + i) := by
    intro i inside
    obtain ⟨b, found⟩ := Option.isSome_iff_exists.mp (written i inside)
    simp [expected, inside, found]
  have some_call : calls ≠ [] := by
    rintro rfl
    cases written 0 positive
  have storable := succeed.storable file healthy some_call
  obtain ⟨kept, held⟩ := writes_held storable healthy calls
  have whole : expected.length = range.size := by simp [expected, range]
  have available : Available deployment path range expected (calls.foldl (WriteCall.exec path) cluster) := by
    refine available_of_byteAt whole fun i inside => ?_
    obtain ⟨b, found⟩ := Option.isSome_iff_exists.mp (written i inside)
    rw [bytes i inside, found]
    exact held _ b found
  exact ⟨expected, exec_gkfsPread reader storable answers whole narrow kept available rfl, whole, bytes⟩

/-- One byte at the start of the second chunk. -/
def farByte : WriteCall (.pair List.length) :=
  ⟨⟨.first _, false, 524288, [7], by decide, by decide, fun _ => frugalPool⟩, by decide, fun _ => frugalPool_complete⟩

/-- Two writes across a chunk boundary, the later one over the end of the earlier one. -/
def overlapping : List (WriteCall (.pair List.length)) :=
  [⟨⟨.first _, false, 524286, [1, 2, 3, 4], by decide, by decide, fun _ => frugalPool⟩, by decide, fun _ => frugalPool_complete⟩,
   ⟨⟨.first _, false, 524288, [7, 8], by decide, by decide, fun _ => frugalPool⟩, by decide, fun _ => frugalPool_complete⟩]

theorem gkfsPread_returns_latest_overlapping :
    ∃ out, (Cluster.server (.pair List.length) fun _ => frugalPool).exec
          (ClientOps.gkfsPread (.first (.pair List.length)) "/file".toList [0, 0, 0] (.ofNat 64 524287))
          (overlapping.foldl (WriteCall.exec "/file".toList) .fresh) =
        (some (.ok 3, out), overlapping.foldl (WriteCall.exec "/file".toList) .fresh) ∧
      out.length = 3 ∧ ∀ i < 3, out[i]? = [2, 7, 8][i]? := by
  have latestBytes : ∀ i < 3, latest overlapping (524287 + i) = [2, 7, 8][i]? := by decide
  obtain ⟨out, ran, length, bytes⟩ := gkfsPread_returns_latest isFilePath_file healthy_fresh
    (succeed_of_storable storable_file healthy_fresh overlapping) (.first _) (fun _ => frugalPool_answers) 524287
    (show ([0, 0, 0] : List Byte) ≠ [] by decide) (by decide)
  exact ⟨out, ran, length, fun i inside => (bytes i inside).trans (latestBytes i inside)⟩

end GekkoFwd.Proofs.ReadAfterWrite
