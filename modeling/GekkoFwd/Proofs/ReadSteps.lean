import GekkoFwd.ConcurrentRead
import GekkoFwd.Proofs.SparseReads

/-! The steps of one read of a file that changes meanwhile. Each byte is read at some moment, at
which it has a value that it may have; a task that finds the end of its chunk file has seen at
that moment that the bytes behind it are missing. -/

namespace GekkoFwd.Proofs.ReadSteps
open ChunkPartition IoPartition StorageSpec DataPath ReadAfterWrite SparseReads SrvSplit ConcurrentRead

variable {deployment : Deployment} {path : Str} {range : IoRange} {may : Nat → Option Byte → Prop}

/-! The local calls of one task. -/

/-- The offset in the file of a byte of a chunk's piece. -/
def place (range : IoRange) (c k : Nat) : Nat := range.offset + (range.split.origin c + k)

/-- All that a read has seen of the piece of a chunk are values that its bytes may have. -/
structure Seen (range : IoRange) (may : Nat → Option Byte → Prop) (c : Nat) (bytes : List Byte) : Prop where
  fits : bytes.length ≤ range.split.size c
  each : ∀ k < range.split.size c, may (place range c k) bytes[k]?

/-- What a task has put into the buffer. -/
def got : Progress → List Byte
  | .created => []
  | .opened _ _ bytes => bytes
  | .set (.ok bytes) => bytes
  | .set (.error _) => []

/-- What is known of a task on the store of its host. -/
def TaskOk (path : Str) (range : IoRange) (may : Nat → Option Byte → Prop) (storage : Storage) (c : Nat) : Progress → Prop
  | .created => True
  | .opened file _ bytes => file = [dirName path, DecText.toText c] ∧ (stored storage (dirName path) c).isSome ∧
      bytes.length < range.split.size c ∧ ∀ k < bytes.length, may (place range c k) bytes[k]?
  | .set (.ok bytes) => Seen range may c bytes
  | .set (.error read) => read = -LocalFs.Errno.enoent.value ∧ Seen range may c []

section Tasks
variable {storage : Storage} {schedule : ChunkStorage.PreadSchedule} {packed c : Nat} {bulk : List Byte} {ndebug : Bool}

theorem openRead_chunk (valid : WellFormed storage) {dir : Str} (fits : dir.length ≤ LocalFs.nameMax) {c : Nat} (small : c < 2 ^ 32) :
    storage.openRead [dir, DecText.toText c] = (stored storage dir c).elim (.error .enoent) .ok := by
  cases found : stored storage dir c with
  | some content => simp only [LocalFs.FileTree.openRead, valid.find_stored found, Option.elim]
  | none => rcases valid.find_missing fits small found with lost | absent <;> simp only [LocalFs.FileTree.openRead, Option.elim, *]

theorem localCall_created (valid : WellFormed storage) (file : Storable path) (inside : range.split.first ≤ c ∧ c ≤ range.split.last)
    (narrow : c < 2 ^ 32) :
    localCall ndebug path schedule (taskAt range.split packed c) storage bulk .created =
      some ((stored storage (dirName path) c).elim (.set (.error (-LocalFs.Errno.enoent.value)))
        fun _ => .opened [dirName path, DecText.toText c] 0 [], bulk) := by
  obtain ⟨chnkId, size, off, _⟩ := @toNat_taskAt _ _ packed inside.1 inside.2
  have fits := range.split.pos_add_size_le c
  have positive := range.split.size_pos inside.1 inside.2
  rw [range.split_block] at fits
  have asserted : assertThat ndebug (decide (range.split.pos c + range.split.size c ≤ chunksize)) = .ok () := by
    rw [decide_eq_true (by omega), assertThat_true]
  have opened : openChunk ndebug path (taskAt range.split packed c) storage =
      (stored storage (dirName path) c).elim (.error (.systemError .enoent)) fun _ => .ok [dirName path, DecText.toText c] := by
    rw [openChunk, Task.chunkId, chnkId, size, off, asserted, Nat.mod_eq_of_lt narrow, chunkFile_file file.toIsFilePath]
    simp only [bind, Except.bind, openRead_chunk valid file.short narrow]
    cases stored storage (dirName path) c <;> rfl
  simp only [localCall, opened]
  cases stored storage (dirName path) c <;> rfl

theorem localCall_opened {content bytes : List Byte} {round most : Nat} (valid : WellFormed storage)
    (inside : range.split.first ≤ c ∧ c ≤ range.split.last) (found : stored storage (dirName path) c = some content)
    (answered : schedule round = .ok most) :
    localCall ndebug path schedule (taskAt range.split packed c) storage bulk (.opened [dirName path, DecText.toText c] round bytes) =
      let more := ByteFile.pread content (min (range.split.size c - bytes.length) (max most 1)) (range.split.pos c + bytes.length)
      let filled := ByteFile.pwrite bulk more ((taskAt range.split packed c).buf.toNat + bytes.length)
      if more = [] then some (.set (.ok bytes), bulk)
      else if (bytes ++ more).length = range.split.size c then some (.set (.ok (bytes ++ more)), filled)
      else some (.opened [dirName path, DecText.toText c] (round + 1) (bytes ++ more), filled) := by
  obtain ⟨_, size, off, _⟩ := @toNat_taskAt _ _ packed inside.1 inside.2
  simp only [localCall, LocalFs.FileTree.openRead, valid.find_stored found, answered, size, off]

/-- The values that the store has for the bytes of a chunk's piece are such that they may have. -/
def Shows (path : Str) (range : IoRange) (may : Nat → Option Byte → Prop) (storage : Storage) (c : Nat) : Prop :=
  ∀ k < range.split.size c, may (place range c k) ((stored storage (dirName path) c).bind (·[range.split.pos c + k]?))

/-- A round of the loop continues what was read before with what it finds. -/
theorem may_append {content bytes : List Byte} {count k : Nat} (shows' : Shows path range may storage c)
    (found : stored storage (dirName path) c = some content) (read : ∀ k < bytes.length, may (place range c k) bytes[k]?)
    (room : count ≤ range.split.size c - bytes.length)
    (inside : k < (bytes ++ ByteFile.pread content count (range.split.pos c + bytes.length)).length) :
    may (place range c k) (bytes ++ ByteFile.pread content count (range.split.pos c + bytes.length))[k]? := by
  rw [List.length_append, ByteFile.length_pread] at inside
  by_cases earlier : k < bytes.length
  · rw [List.getElem?_append_left earlier]
    exact read k earlier
  · have value := shows' k (by omega)
    rw [found, Option.bind_some] at value
    rw [List.getElem?_append_right (by omega), ByteFile.getElem?_pread, if_pos (by omega),
      show range.split.pos c + bytes.length + (k - bytes.length) = range.split.pos c + k by omega]
    exact value

theorem TaskOk.step {progress stepped : Progress} {filled : List Byte} (valid : WellFormed storage) (file : Storable path)
    (answers : ∀ round, ∃ most, schedule round = .ok most) (inside : range.split.first ≤ c ∧ c ≤ range.split.last) (narrow : c < 2 ^ 32)
    (shows' : Shows path range may storage c) (before : TaskOk path range may storage c progress)
    (ran : localCall ndebug path schedule (taskAt range.split packed c) storage bulk progress = some (stepped, filled)) :
    TaskOk path range may storage c stepped ∧ ∃ more, got stepped = got progress ++ more ∧
      filled = ByteFile.pwrite bulk more ((taskAt range.split packed c).buf.toNat + (got progress).length) := by
  have positive := range.split.size_pos inside.1 inside.2
  cases progress with
  | created =>
    rw [localCall_created valid file inside narrow] at ran
    cases found : stored storage (dirName path) c with
    | none =>
      rw [found] at ran
      cases ran
      refine ⟨⟨rfl, Nat.zero_le _, fun k small => ?_⟩, [], rfl, (ByteFile.pwrite_nil ..).symm⟩
      have value := shows' k small
      rw [found] at value
      exact value
    | some content =>
      rw [found] at ran
      cases ran
      exact ⟨⟨rfl, by rw [found]; rfl, positive, fun k impossible => absurd impossible (Nat.not_lt_zero k)⟩, [], rfl,
        (ByteFile.pwrite_nil ..).symm⟩
  | opened name round bytes =>
    obtain ⟨rfl, present, short, read⟩ := before
    obtain ⟨content, found⟩ := Option.isSome_iff_exists.mp present
    obtain ⟨most, answered⟩ := answers round
    rw [localCall_opened valid inside found answered] at ran
    have bound := ByteFile.length_pread content (min (range.split.size c - bytes.length) (max most 1)) (range.split.pos c + bytes.length)
    have seen := fun k => @may_append path range may storage c content bytes _ k shows' found read
      (Nat.min_le_left (range.split.size c - bytes.length) (max most 1))
    revert ran
    simp only
    split
    next nothing =>
      -- the end of the chunk file: at this moment the rest of the piece is missing
      rintro ⟨⟩
      have asked : 0 < min (range.split.size c - bytes.length) (max most 1) :=
        Nat.lt_min.mpr ⟨Nat.sub_pos_of_lt short, Nat.lt_of_lt_of_le Nat.one_pos (Nat.le_max_right _ _)⟩
      rw [nothing, List.length_nil] at bound
      have ended := Nat.le_of_sub_eq_zero ((Nat.min_eq_zero_iff.mp bound.symm).resolve_left asked.ne')
      refine ⟨⟨short.le, fun k small => ?_⟩, [], (List.append_nil _).symm, (ByteFile.pwrite_nil ..).symm⟩
      by_cases earlier : k < bytes.length
      · exact read k earlier
      · have later := Nat.le_of_not_lt earlier
        have value := shows' k small
        rw [found, Option.bind_some, List.getElem?_eq_none (ended.trans (Nat.add_le_add_left later _))] at value
        rw [List.getElem?_eq_none later]
        exact value
    next =>
      split
      next full =>
        rintro ⟨⟩
        exact ⟨⟨by omega, fun k small => seen k (by omega)⟩, _, rfl, by rw [got]⟩
      next partly =>
        rintro ⟨⟩
        refine ⟨⟨rfl, present, ?_, seen⟩, _, rfl, by rw [got]⟩
        rw [List.length_append] at partly ⊢
        omega
  | set read => cases ran

/-- A task whose eventual is not set can go on. -/
theorem TaskOk.can_step {progress : Progress} (valid : WellFormed storage) (file : Storable path)
    (answers : ∀ round, ∃ most, schedule round = .ok most) (inside : range.split.first ≤ c ∧ c ≤ range.split.last) (narrow : c < 2 ^ 32)
    (before : TaskOk path range may storage c progress) :
    (∃ read, progress = .set read) ∨
      ∃ stepped, localCall ndebug path schedule (taskAt range.split packed c) storage bulk progress = some stepped := by
  cases progress with
  | created => exact .inr ⟨_, localCall_created valid file inside narrow⟩
  | opened name round bytes =>
    obtain ⟨rfl, present, _⟩ := before
    obtain ⟨content, found⟩ := Option.isSome_iff_exists.mp present
    obtain ⟨most, answered⟩ := answers round
    right
    rw [localCall_opened valid inside found answered]
    simp only
    split
    next => exact ⟨_, rfl⟩
    next => split <;> exact ⟨_, rfl⟩
  | set read => exact .inl ⟨read, rfl⟩

/-- One local call on a store that stays as it is. -/
def Calls (ndebug : Bool) (path : Str) (schedule : ChunkStorage.PreadSchedule) (task : Task) (storage : Storage)
    (before after : Progress × List Byte) : Prop :=
  localCall ndebug path schedule task storage before.2 before.1 = some after

/-- The loop of `read_chunk` as its rounds. -/
theorem calls_readRest {task : Task} {file : List Str} {content : List Byte} (here : storage.openRead file = .ok content)
    (round : Nat) (bytes : List Byte) (read : Except Int (List Byte))
    (ran : Daemon.readEventual (ChunkStorage.readRest schedule content task.size.toNat task.off.toNat round bytes) = some read) :
    ∃ filled, Relation.ReflTransGen (Calls ndebug path schedule task storage)
        (.opened file round bytes, ByteFile.pwrite bulk bytes task.buf.toNat) (.set read, filled) ∧
      ∀ whole, read = .ok whole → filled = ByteFile.pwrite bulk whole task.buf.toNat := by
  fun_induction ChunkStorage.readRest schedule content task.size.toNat task.off.toNat round bytes with
  | case1 round bytes errno failed =>
    cases ran
    refine ⟨ByteFile.pwrite bulk bytes task.buf.toNat, .single ?_, fun whole impossible => ?_⟩
    · simp only [Calls, localCall, here, failed]
    · cases impossible
  | case2 round bytes most answered got nothing =>
    cases ran
    refine ⟨ByteFile.pwrite bulk bytes task.buf.toNat, .single ?_, fun whole same => by cases same; rfl⟩
    simp only [Calls, localCall, here, answered]
    exact if_pos nothing
  | case3 round bytes most answered got some_bytes full =>
    cases ran
    refine ⟨ByteFile.pwrite bulk (bytes ++ got) task.buf.toNat, .single ?_, fun whole same => by cases same; rfl⟩
    simp only [Calls, localCall, here, answered]
    refine (if_neg some_bytes).trans ((if_pos full).trans ?_)
    rw [ByteFile.pwrite_append]
  | case4 round bytes most answered got some_bytes partly ih =>
    obtain ⟨filled, steps, whole⟩ := ih ran
    refine ⟨filled, .head ?_ steps, whole⟩
    simp only [Calls, localCall, here, answered]
    refine (if_neg some_bytes).trans ((if_neg partly).trans ?_)
    rw [ByteFile.pwrite_append]

/-- A task that nothing disturbs does what it does in one piece. -/
theorem calls_readFileAbt {task : Task} {read : Except Int (List Byte)}
    (ran : Daemon.readFileAbt ndebug path schedule task storage = some read) (bulk : List Byte) :
    ∃ filled, Relation.ReflTransGen (Calls ndebug path schedule task storage) (.created, bulk) (.set read, filled) ∧
      ∀ whole, read = .ok whole → filled = ByteFile.pwrite bulk whole task.buf.toNat := by
  have failed : ∀ {error : Exn}, openChunk ndebug path task storage = .error error → Daemon.readEventual (.error error) = some read →
      ∃ filled, Relation.ReflTransGen (Calls ndebug path schedule task storage) (.created, bulk) (.set read, filled) ∧
        ∀ whole, read = .ok whole → filled = ByteFile.pwrite bulk whole task.buf.toNat := by
    intro error opened eventual
    cases error with
    | systemError errno =>
      cases eventual
      refine ⟨bulk, .single ?_, fun whole impossible => ?_⟩
      · simp only [Calls, localCall, opened]
      · cases impossible
    | _ => cases eventual
  rw [Daemon.readFileAbt, ChunkStorage.readChunk] at ran
  cases asserted : assertThat ndebug (decide (task.off.toNat + task.size.toNat ≤ chunksize)) with
  | error error =>
    rw [asserted] at ran
    exact failed (by rw [openChunk, asserted]; rfl) ran
  | ok =>
    cases name : ChunkStorage.chunkFile ndebug path task.chunkId with
    | error error =>
      simp only [asserted, name, bind, Except.bind] at ran
      exact failed (by simp only [openChunk, asserted, name, bind, Except.bind]) ran
    | ok file =>
      cases content : storage.openRead file with
      | error errno =>
        simp only [asserted, name, content, bind, Except.bind] at ran
        exact failed (by simp only [openChunk, asserted, name, content, bind, Except.bind]) ran
      | ok content' =>
        simp only [asserted, name, content, bind, Except.bind] at ran
        obtain ⟨filled, steps, whole⟩ := @calls_readRest path storage schedule bulk ndebug task file content' content 0 [] read ran
        rw [ByteFile.pwrite_nil] at steps
        refine ⟨filled, .head ?_ steps, whole⟩
        simp only [Calls, localCall, openChunk, asserted, name, content, bind, Except.bind]

/-- A bound on the calls that a task has still to make. -/
def left (size : Nat) : Progress → Nat
  | .created => size + 2
  | .opened _ _ bytes => size - bytes.length + 1
  | .set _ => 0

theorem left_localCall {progress stepped : Progress} {filled : List Byte} (valid : WellFormed storage) (file : Storable path)
    (answers : ∀ round, ∃ most, schedule round = .ok most) (inside : range.split.first ≤ c ∧ c ≤ range.split.last) (narrow : c < 2 ^ 32)
    (before : TaskOk path range may storage c progress)
    (ran : localCall ndebug path schedule (taskAt range.split packed c) storage bulk progress = some (stepped, filled)) :
    left (range.split.size c) stepped < left (range.split.size c) progress := by
  cases progress with
  | created =>
    rw [localCall_created valid file inside narrow] at ran
    cases found : stored storage (dirName path) c with
    | none =>
      rw [found, Option.elim_none] at ran
      cases ran
      rw [left, left]
      omega
    | some content =>
      rw [found, Option.elim_some] at ran
      cases ran
      rw [left, left]
      rw [List.length_nil]
      omega
  | opened name round bytes =>
    obtain ⟨rfl, present, short, read⟩ := before
    obtain ⟨content, found⟩ := Option.isSome_iff_exists.mp present
    obtain ⟨most, answered⟩ := answers round
    rw [localCall_opened valid inside found answered] at ran
    revert ran
    simp only
    split
    next =>
      rintro ⟨⟩
      rw [left, left]
      omega
    next some_bytes =>
      have positive := List.length_pos_of_ne_nil some_bytes
      split
      next =>
        rintro ⟨⟩
        rw [left, left]
        omega
      next =>
        rintro ⟨⟩
        rw [left, left, List.length_append]
        omega
  | set read => cases ran

end Tasks

theorem TaskOk.length_got_le {storage : Storage} {c : Nat} {progress : Progress} (valid : TaskOk path range may storage c progress) :
    (got progress).length ≤ range.split.size c := by
  cases progress with
  | created => exact Nat.zero_le _
  | opened name round bytes => exact valid.2.2.1.le
  | set read =>
    cases read with
    | ok bytes => exact valid.fits
    | error read => exact Nat.zero_le _

/-- Chunk files that are not removed stay open. -/
theorem TaskOk.mono {storage after : Storage} {c : Nat} {progress : Progress} (valid : TaskOk path range may storage c progress)
    (kept : (stored storage (dirName path) c).isSome → (stored after (dirName path) c).isSome) :
    TaskOk path range may after c progress := by
  cases progress with
  | created => trivial
  | opened name round bytes => exact ⟨valid.1, kept valid.2.1, valid.2.2⟩
  | set read => cases read <;> exact valid

/-- What the handler makes of an eventual that is set. -/
theorem TaskOk.eventual {storage : Storage} {c : Nat} {read : Except Int (List Byte)}
    (valid : TaskOk path range may storage c (.set read)) :
    Seen range may c (got (.set read)) ∧
      (read = .ok (got (.set read)) ∨ read = .error (-LocalFs.Errno.enoent.value) ∧ got (.set read) = []) := by
  cases read with
  | ok bytes => exact ⟨valid, .inl rfl⟩
  | error read => exact ⟨valid.2, .inr ⟨by rw [valid.1], rfl⟩⟩

/-! The steps of one request. -/

/-- The chunks of the range that one host gets. -/
def mine (client : Client deployment) (path : Str) (range : IoRange) (target : Nat) : List Nat :=
  range.chunks fun c => decide (client.locateData path c = target)

/-- What a target answers if its tasks have read this. -/
def answerOf (client : Client deployment) (path : Str) (range : IoRange) (found : Nat → List Byte) (target : Nat) :
    Int × Word × List (Nat × List Byte) :=
  (0, .ofNat 64 ((mine client path range target).map fun c => (found c).length).sum,
    ((mine client path range target).filter fun c => found c != []).map fun c => (range.split.origin c, found c))

/-- What is known of the request to a target. -/
def JobOk (client : Client deployment) (path : Str) (range : IoRange) (may : Nat → Option Byte → Prop) (request : Nat → DataIn)
    (cluster : Cluster) (target : Nat) : Job → Prop
  | .posted host input => host = target ∧ input = request target
  | .running host input tasks bulk progress => host = target ∧ input = request target ∧
      tasks = tasksFrom range.split 0 (mine client path range target) ∧
      bulk.length = range.split.total (mine client path range target) ∧
      ∀ task ∈ tasks, TaskOk path range may (cluster.storage (deployment.backend target)) task.chnkId.toNat (progress task) ∧
        ByteFile.pread bulk (got (progress task)).length task.buf.toNat = got (progress task)
  | .answered reply => ∃ found : Nat → List Byte, (∀ c ∈ mine client path range target, Seen range may c (found c)) ∧
      reply = answerOf client path range found target

section Jobs
variable {client : Client deployment} {request : Nat → DataIn} {cluster : Cluster} {target : Nat}

/-- No chunk file is removed. -/
def Grows (path : Str) (before after : Cluster) : Prop :=
  ∀ backend c, (stored (before.storage backend) (dirName path) c).isSome → (stored (after.storage backend) (dirName path) c).isSome

theorem JobOk.mono {job : Job} {after : Cluster} (valid : JobOk client path range may request cluster target job)
    (grows : Grows path cluster after) : JobOk client path range may request after target job := by
  cases job with
  | posted => exact valid
  | running =>
    obtain ⟨here, sent, created, length, each⟩ := valid
    refine ⟨here, sent, created, length, fun task member => ?_⟩
    obtain ⟨valid, held⟩ := each task member
    exact ⟨valid.mono (grows _ _), held⟩
  | answered => exact valid

/-- The parts of the buffer of different tasks. -/
theorem buffers_disjoint {mine : Nat → Bool} {task other : Task} (member : task ∈ tasksFrom range.split 0 (range.chunks mine))
    (member' : other ∈ tasksFrom range.split 0 (range.chunks mine)) (different : task ≠ other) :
    task.buf.toNat + task.size.toNat ≤ other.buf.toNat ∨ other.buf.toNat + other.size.toNat ≤ task.buf.toNat := by
  obtain ⟨before, c, after, parts, rfl, here, _⟩ := chunk_of_task member
  obtain ⟨before', c', after', parts', rfl, here', _⟩ := chunk_of_task member'
  rw [(toNat_localOffset parts).1, (toNat_localOffset parts').1, (toNat_taskAt here.1 here.2).2.1, (toNat_taskAt here'.1 here'.2).2.1]
  rcases List.append_eq_append_iff.mp (parts.symm.trans parts') with ⟨between, rfl, same⟩ | ⟨between, rfl, same⟩
  · cases between with
    | nil =>
      cases same
      exact absurd (by rw [List.append_nil]) different
    | cons first between =>
      cases same
      left
      rw [BlockSplit.total_append, BlockSplit.total_cons]
      omega
  · cases between with
    | nil =>
      cases same
      exact absurd (by rw [List.append_nil]) different
    | cons first between =>
      cases same
      right
      rw [BlockSplit.total_append, BlockSplit.total_cons]
      omega

theorem buffer_inside {mine : Nat → Bool} {task : Task} (member : task ∈ tasksFrom range.split 0 (range.chunks mine)) :
    task.buf.toNat + task.size.toNat ≤ range.split.total (range.chunks mine) := by
  obtain ⟨before, c, after, parts, rfl, here, _⟩ := chunk_of_task member
  rw [(toNat_localOffset parts).1, (toNat_taskAt here.1 here.2).2.1, parts, BlockSplit.total_append, BlockSplit.total_cons]
  omega

/-- The answer of a handler whose eventuals are all set. -/
theorem awaitReads_answerOf {bulk : List Byte} {read : Task → Except Int (List Byte)} {storage : Storage}
    (each : ∀ task ∈ tasksFrom range.split 0 (mine client path range target),
      TaskOk path range may storage task.chnkId.toNat (.set (read task)) ∧
        ByteFile.pread bulk (got (.set (read task))).length task.buf.toNat = got (.set (read task))) :
    ∃ found : Nat → List Byte, (∀ c ∈ mine client path range target, Seen range may c (found c)) ∧
      Daemon.awaitReads bulk ((tasksFrom range.split 0 (mine client path range target)).map fun task => (task, read task)) =
        answerOf client path range found target := by
  have ids := toNat_chnkId_tasksFrom (chunks_inside range fun c => decide (client.locateData path c = target)) 0
  have distinct : ((tasksFrom range.split 0 (mine client path range target)).map (·.chnkId.toNat)).Nodup := by
    rw [mine, ids]
    exact owned_nodup _ _ _
  have owner : ∀ c ∈ mine client path range target, ∃ task ∈ tasksFrom range.split 0 (mine client path range target),
      task.chnkId.toNat = c := by
    intro c member
    rw [mine, ← ids] at member
    exact List.mem_map.mp member
  have chosen : ∀ c, ∃ bytes, ∀ task ∈ tasksFrom range.split 0 (mine client path range target), task.chnkId.toNat = c →
      got (.set (read task)) = bytes := by
    intro c
    by_cases owned : c ∈ mine client path range target
    · obtain ⟨task, created, rfl⟩ := owner c owned
      refine ⟨got (.set (read task)), fun other created' same => ?_⟩
      rw [List.inj_on_of_nodup_map distinct created' created same]
    · refine ⟨[], fun task created same => absurd ?_ owned⟩
      rw [mine, ← ids, ← same]
      exact List.mem_map.mpr ⟨task, created, rfl⟩
  choose found found_eq using chosen
  refine ⟨found, fun c member => ?_, ?_⟩
  · obtain ⟨task, created, rfl⟩ := owner c member
    rw [← found_eq _ task created rfl]
    exact (each task created).1.eventual.1
  have answered := awaitReads_spec bulk (tasksFrom range.split 0 (mine client path range target)) read (fun task => found task.chnkId.toNat)
    (fun task created => by
      rw [← found_eq _ task created rfl]
      exact (each task created).1.eventual.2)
    (fun task created => by
      rw [← found_eq _ task created rfl]
      have held := (each task created).2
      obtain ⟨before, c, after, parts, rfl, _⟩ := chunk_of_task created
      rw [(toNat_localOffset parts).1] at held
      rw [(toNat_localOffset parts).2]
      exact held)
  rw [answered, answerOf, mine]
  conv_rhs => rw [← ids, List.map_map, List.filter_map, List.map_map]
  refine congrArg (fun pushes => ((0 : Int), _, pushes)) (List.map_congr_left fun task member => ?_)
  obtain ⟨_, c, _, _, rfl, here, _⟩ := chunk_of_task (List.mem_of_mem_filter member)
  rw [Function.comp_apply, (toNat_taskAt here.1 here.2).2.2.2, (toNat_taskAt here.1 here.2).1]

theorem JobOk.step {job stepped : Job} {targets : List Nat} {final : Nat → SrvSplit.State} {call : Call deployment}
    (file : Storable path) (answers : ∀ host, Answers (call.pools host)) (dispatch : Dispatch client path range targets request final)
    (narrow : range.split.last < 2 ^ 32) (member : target ∈ targets) (healthy : Healthy cluster)
    (shows' : ∀ c ∈ mine client path range target, Shows path range may (cluster.storage (deployment.backend target)) c)
    (valid : JobOk client path range may request cluster target job) (step : JobStep call cluster job stepped) :
    JobOk client path range may request cluster target stepped := by
  cases step with
  | accept ran =>
    obtain ⟨rfl, rfl⟩ := valid
    cases ran.symm.trans (dispatch.runs _ member)
    refine ⟨rfl, rfl, dispatch.tasks _ member, ?_, fun task created => ⟨trivial, rfl⟩⟩
    rw [List.length_replicate, (dispatch.addressed _).announces.totalChunkSize, Words.toNat_ofNat (range.total_chunks_lt _)]
    rfl
  | @task host input tasks bulk filled progress task stepped created ran =>
    obtain ⟨rfl, rfl, rfl, length, each⟩ := valid
    have before := each task created
    obtain ⟨first, c, rest, parts, rfl, here, chnkId⟩ := chunk_of_task created
    have owned : c ∈ mine client path range host := by
      rw [show mine client path range host = _ from parts]
      simp
    rw [(dispatch.addressed _).path] at ran
    rw [chnkId] at before
    obtain ⟨valid, more, grown, rfl⟩ := before.1.step (healthy.stores _) file (answers _ _) here (by omega) (shows' c owned) ran
    have fits := valid.length_got_le
    have size := (@toNat_taskAt _ _ (range.split.total first) here.1 here.2).2.1
    have inside := buffer_inside created
    rw [grown, List.length_append] at fits
    refine ⟨rfl, rfl, rfl, ?_, fun other created' => ?_⟩
    · rw [ByteFile.length_pwrite_of_le, length]
      rw [length]
      change _ ≤ range.split.total (range.chunks _)
      omega
    · by_cases same : other = taskAt range.split (range.split.total first) c
      · subst same
        rw [Function.update_self, chnkId]
        refine ⟨valid, ?_⟩
        rw [grown]
        exact ByteFile.pread_pwrite_behind before.2 more
      · rw [Function.update_of_ne same]
        obtain ⟨kept, held⟩ := each other created'
        refine ⟨kept, ?_⟩
        have apart := buffers_disjoint created created' fun equal => same equal.symm
        have room := buffer_inside created'
        have short := kept.length_got_le
        obtain ⟨first', d, _, _, rfl, here', chnkId'⟩ := chunk_of_task created'
        have size' := (@toNat_taskAt _ _ (range.split.total first') here'.1 here'.2).2.1
        rw [chnkId'] at short
        rw [ByteFile.pread_pwrite_of_disjoint, held]
        · rw [length]
          change _ ≤ range.split.total (range.chunks _)
          omega
        · omega
  | @answer host input tasks bulk progress read set =>
    obtain ⟨rfl, rfl, rfl, length, each⟩ := valid
    refine @awaitReads_answerOf _ _ _ _ _ _ _ _ (cluster.storage (deployment.backend host)) fun task created => ?_
    rw [← set task created]
    exact each task created

/-! Every request can be answered. -/

theorem task_can_finish {input : DataIn} {tasks : List Task} {bulk : List Byte} {progress : Task → Progress} {targets : List Nat}
    {final : Nat → SrvSplit.State} {call : Call deployment} {task : Task} (file : Storable path)
    (answers : ∀ host, Answers (call.pools host))
    (dispatch : Dispatch client path range targets request final) (narrow : range.split.last < 2 ^ 32) (member : target ∈ targets)
    (healthy : Healthy cluster)
    (shows' : ∀ c ∈ mine client path range target, Shows path range may (cluster.storage (deployment.backend target)) c)
    (valid : JobOk client path range may request cluster target (.running target input tasks bulk progress)) (created : task ∈ tasks) :
    ∃ filled read, Relation.ReflTransGen (JobStep call cluster) (.running target input tasks bulk progress)
      (.running target input tasks filled (Function.update progress task (.set read))) := by
  obtain ⟨bound, held⟩ : ∃ bound, left task.size.toNat (progress task) < bound := ⟨_, Nat.lt_succ_self _⟩
  induction bound generalizing bulk progress with
  | zero => exact absurd held (Nat.not_lt_zero _)
  | succ bound ih =>
    have here := valid
    obtain ⟨_, rfl, rfl, _, each⟩ := here
    have taskOk := (each task created).1
    obtain ⟨first, c, rest, parts, rfl, inside, chnkId⟩ := chunk_of_task created
    rw [chnkId] at taskOk
    rcases @TaskOk.can_step _ _ _ _ ((call.pools target).pread _) (range.split.total first) _ bulk deployment.ndebug _
      (healthy.stores _) file
      (answers _ _) inside (by omega) taskOk with ⟨read, done⟩ | ⟨⟨stepped, filled⟩, ran⟩
    · exact ⟨bulk, read, by rw [← done, Function.update_eq_self]⟩
    · have size := (@toNat_taskAt _ _ (range.split.total first) inside.1 inside.2).2.1
      have less := left_localCall (healthy.stores _) file (answers _ _) inside (by omega) taskOk ran
      have step : JobStep call cluster
          (.running target (request target) (tasksFrom range.split 0 (mine client path range target)) bulk progress)
          (.running target (request target) (tasksFrom range.split 0 (mine client path range target)) filled
            (Function.update progress (taskAt range.split (range.split.total first) c) stepped)) := by
        refine .task created ?_
        rw [(dispatch.addressed _).path]
        exact ran
      have kept := valid.step file answers dispatch narrow member healthy shows' step
      obtain ⟨last, read, steps⟩ := ih kept (by rw [Function.update_self, size]; rw [size] at held; omega)
      rw [Function.update_idem] at steps
      exact ⟨last, read, .head step steps⟩

theorem JobOk.run {job last : Job} {targets : List Nat} {final : Nat → SrvSplit.State} {call : Call deployment}
    (file : Storable path) (answers : ∀ host, Answers (call.pools host)) (dispatch : Dispatch client path range targets request final)
    (narrow : range.split.last < 2 ^ 32) (member : target ∈ targets) (healthy : Healthy cluster)
    (shows' : ∀ c ∈ mine client path range target, Shows path range may (cluster.storage (deployment.backend target)) c)
    (valid : JobOk client path range may request cluster target job) (steps : Relation.ReflTransGen (JobStep call cluster) job last) :
    JobOk client path range may request cluster target last := by
  induction steps with
  | refl => exact valid
  | tail _ step ih => exact ih.step file answers dispatch narrow member healthy shows' step

theorem tasks_can_finish {input : DataIn} {tasks rest : List Task} {bulk : List Byte} {progress : Task → Progress} {targets : List Nat}
    {final : Nat → SrvSplit.State} {call : Call deployment} (file : Storable path) (answers : ∀ host, Answers (call.pools host))
    (dispatch : Dispatch client path range targets request final) (narrow : range.split.last < 2 ^ 32) (member : target ∈ targets)
    (healthy : Healthy cluster)
    (shows' : ∀ c ∈ mine client path range target, Shows path range may (cluster.storage (deployment.backend target)) c)
    (valid : JobOk client path range may request cluster target (.running target input tasks bulk progress)) (among : rest ⊆ tasks) :
    ∃ filled later, Relation.ReflTransGen (JobStep call cluster) (.running target input tasks bulk progress)
      (.running target input tasks filled later) ∧ ∀ task ∈ rest, ∃ read, later task = .set read := by
  induction rest with
  | nil => exact ⟨bulk, progress, .refl, fun task impossible => absurd impossible List.not_mem_nil⟩
  | cons task rest ih =>
    obtain ⟨filled, later, steps, done⟩ := ih fun other member => among (List.mem_cons_of_mem _ member)
    have kept := valid.run file answers dispatch narrow member healthy shows' steps
    obtain ⟨last, read, more⟩ := task_can_finish file answers dispatch narrow member healthy shows' kept (among List.mem_cons_self)
    refine ⟨last, _, steps.trans more, fun other member => ?_⟩
    by_cases same : other = task
    · exact ⟨read, by rw [same, Function.update_self]⟩
    · rw [Function.update_of_ne same]
      exact done other (List.mem_of_ne_of_mem same member)

theorem job_can_finish {job : Job} {targets : List Nat} {final : Nat → SrvSplit.State} {call : Call deployment}
    (file : Storable path) (answers : ∀ host, Answers (call.pools host)) (dispatch : Dispatch client path range targets request final)
    (narrow : range.split.last < 2 ^ 32) (member : target ∈ targets) (healthy : Healthy cluster)
    (shows' : ∀ c ∈ mine client path range target, Shows path range may (cluster.storage (deployment.backend target)) c)
    (valid : JobOk client path range may request cluster target job) :
    ∃ reply, Relation.ReflTransGen (JobStep call cluster) job (.answered reply) := by
  have running : ∀ {input tasks bulk progress},
      JobOk client path range may request cluster target (.running target input tasks bulk progress) →
      ∃ reply, Relation.ReflTransGen (JobStep call cluster) (.running target input tasks bulk progress) (.answered reply) := by
    intro input tasks bulk progress valid
    obtain ⟨filled, later, steps, done⟩ :=
      tasks_can_finish file answers dispatch narrow member healthy shows' valid (List.Subset.refl tasks)
    choose! read set using done
    exact ⟨_, steps.tail (.answer set)⟩
  cases job with
  | answered reply => exact ⟨reply, .refl⟩
  | running host input tasks bulk progress =>
    obtain ⟨rfl, rest⟩ := valid
    exact running ⟨rfl, rest⟩
  | posted host input =>
    have step : JobStep call cluster (.posted host input) _ := .accept (by rw [valid.2]; exact dispatch.runs target member)
    have kept := valid.step file answers dispatch narrow member healthy shows' step
    obtain ⟨rfl, rfl⟩ := valid
    obtain ⟨reply, steps⟩ := running kept
    exact ⟨reply, .head step steps⟩

end Jobs

end GekkoFwd.Proofs.ReadSteps
