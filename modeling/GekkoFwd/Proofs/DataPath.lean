import GekkoFwd.ClientOps
import GekkoFwd.Proofs.IoPartition
import GekkoFwd.Proofs.StorageSpec

/-! What a write puts into the chunk stores and what a read gets out of them, from the
local calls of one task up to the client's function. -/

namespace GekkoFwd.Proofs.DataPath
open ChunkPartition IoPartition StorageSpec SrvSplit

/-- The part of a buffer that belongs to a chunk. -/
def slice (range : IoRange) (data : List Byte) (c : Nat) : List Byte :=
  ByteFile.pread data (range.split.size c) (range.split.origin c)

section Buffers
variable {range : IoRange} {data : List Byte} (whole : data.length = range.size)
include whole

theorem length_slice {c : Nat} (inside : range.split.first ≤ c ∧ c ≤ range.split.last) :
    (slice range data c).length = range.split.size c := by
  have fits := range.split.origin_add_size_le inside.1 inside.2
  rw [range.split_length] at fits
  rw [slice, ByteFile.length_pread]
  omega

end Buffers

section Write
variable {range : IoRange} {data : List Byte} {mine : Nat → Bool} {input : DataIn} {path : Str} {storage : Storage}

theorem chunks_inside (range : IoRange) (mine : Nat → Bool) :
    ∀ c ∈ range.chunks mine, range.split.first ≤ c ∧ c ≤ range.split.last :=
  fun _ member => (range.mem_chunks.mp member).1

theorem toNat_localOffset {before after : List Nat} {c : Nat} (parts : range.chunks mine = before ++ c :: after) :
    (taskAt range.split (range.split.total before) c).buf.toNat = range.split.total before ∧
      (taskAt range.split (range.split.total before) c).localOffset.toNat = range.split.total before := by
  have small := range.total_chunks_lt mine
  rw [parts, BlockSplit.total_append] at small
  exact ⟨Words.toNat_ofNat (by omega), Words.toNat_ofNat (by omega)⟩

theorem toNat_chnkId_tasksFrom {chunks : List Nat} (inside : ∀ c ∈ chunks, range.split.first ≤ c ∧ c ≤ range.split.last)
    (start : Nat) : (tasksFrom range.split start chunks).map (·.chnkId.toNat) = chunks := by
  induction chunks generalizing start with
  | nil => rfl
  | cons c chunks ih =>
    have here := inside c (by simp)
    rw [tasksFrom, List.map_cons, (toNat_taskAt here.1 here.2).1,
      ih fun other member => inside other (List.mem_cons_of_mem _ member)]

theorem pread_pullAll (whole : data.length = range.size) (announced : Announces range mine input)
    {before after : List Nat} {c : Nat} (parts : range.chunks mine = before ++ c :: after) :
    ByteFile.pread (Daemon.pullAll input data (tasksFrom range.split 0 (range.chunks mine))) (range.split.size c)
      (range.split.total before) = slice range data c := by
  have inside := chunks_inside range mine
  have length : ∀ c ∈ range.chunks mine, (slice range data c).length = range.split.size c :=
    fun c member => length_slice whole (inside c member)
  rw [Daemon.pullAll, announced.totalChunkSize, Words.toNat_ofNat (range.total_chunks_lt mine), ← length c (by simp [parts])]
  refine ByteFile.pread_packed (fun c member => Nat.le_of_eq (length c member)) (fun store => ?_) parts
  simp only [List.mem_map, mem_tasksFrom, Nat.zero_add]
  constructor
  · rintro ⟨_, ⟨first, other, rest, parts, rfl⟩, rfl⟩
    have member := inside other (by simp [parts])
    obtain ⟨_, size, _, origin⟩ := @toNat_taskAt _ _ (range.split.total first) member.1 member.2
    exact ⟨first, other, rest, parts, by rw [(toNat_localOffset parts).2, size, origin]; rfl⟩
  · rintro ⟨first, other, rest, parts, rfl⟩
    have member := inside other (by simp [parts])
    obtain ⟨_, size, _, origin⟩ := @toNat_taskAt _ _ (range.split.total first) member.1 member.2
    exact ⟨_, ⟨first, other, rest, parts, rfl⟩, by rw [(toNat_localOffset parts).2, size, origin]; rfl⟩

/-- A pool whose local writes store all they are given. -/
def Complete (pool : IoPool) : Prop := ∀ chnkId, ∃ count, pool.pwrite chnkId = .stored count ∧ chunksize ≤ count

/-- Tasks run as they were created, writes are complete, and reads are cut to one byte. -/
def frugalPool : IoPool := ⟨id, List.Perm.refl, fun _ => .stored chunksize, fun _ _ => .ok 1⟩

theorem frugalPool_complete : Complete frugalPool := fun _ => ⟨chunksize, rfl, Nat.le_refl _⟩

/-- What a task of a write puts into its eventual. -/
def eventual : ChunkStorage.PwriteOutcome → List Byte → Int
  | .stored count, bytes => (min count bytes.length : Nat)
  | .failed errno, _ => -errno.value

/-- What one task of a write does, given the bytes it finds in the daemon's buffer. -/
theorem writeFileAbt_landed {bulk : List Byte} {packed c : Nat} (valid : WellFormed storage) (file : Storable path) (ndebug : Bool)
    (outcome : ChunkStorage.PwriteOutcome) (inside : range.split.first ≤ c ∧ c ≤ range.split.last)
    (pulled : ByteFile.pread bulk (range.split.size c) (taskAt range.split packed c).buf.toNat = slice range data c)
    (whole : data.length = range.size) :
    ∃ after, Daemon.writeFileAbt ndebug path bulk outcome (taskAt range.split packed c) storage =
        (some (eventual outcome (slice range data c)), after) ∧ WellFormed after ∧
      ∀ dir target, stored after dir target = if dir = dirName path ∧ target = c % 2 ^ 32
        then some (written (stored storage dir target) (landed outcome (slice range data c)) (range.split.pos c))
        else stored storage dir target := by
  obtain ⟨chnkId, size, off, _⟩ := @toNat_taskAt _ _ packed inside.1 inside.2
  have length := length_slice whole inside
  have fits := range.split.pos_add_size_le c
  have positive := range.split.size_pos inside.1 inside.2
  rw [range.split_block] at fits
  obtain ⟨after, wrote, kept, stores⟩ := writeChunk_spec valid file ndebug outcome (Nat.mod_lt c (by decide : 0 < 2 ^ 32))
    (show range.split.pos c + (slice range data c).length ≤ chunksize by omega)
  refine ⟨after, ?_, kept, stores⟩
  rw [Daemon.writeFileAbt, SrvSplit.Task.chunkId, chnkId, size, off, pulled, wrote]
  cases outcome <;> rfl

theorem landed_of_complete {outcome : ChunkStorage.PwriteOutcome} (complete : ∃ count, outcome = .stored count ∧ chunksize ≤ count)
    {c : Nat} (inside : range.split.first ≤ c ∧ c ≤ range.split.last) (whole : data.length = range.size) :
    landed outcome (slice range data c) = slice range data c ∧ eventual outcome (slice range data c) = range.split.size c := by
  obtain ⟨count, rfl, enough⟩ := complete
  have length := length_slice whole inside
  have fits := range.split.pos_add_size_le c
  have positive := range.split.size_pos inside.1 inside.2
  rw [range.split_block] at fits
  refine ⟨List.take_of_length_le (by omega), ?_⟩
  rw [eventual, length]
  omega

/-- A task that finds its slice at its place in the daemon's buffer. -/
structure Pulled (range : IoRange) (data bulk : List Byte) (task : Task) : Prop where
  exists_chunk : ∃ packed c, task = taskAt range.split packed c ∧ (range.split.first ≤ c ∧ c ≤ range.split.last) ∧
    ByteFile.pread bulk (range.split.size c) (taskAt range.split packed c).buf.toNat = slice range data c

theorem pulled_of_mem (whole : data.length = range.size) (announced : Announces range mine input) {task : Task}
    (member : task ∈ tasksFrom range.split 0 (range.chunks mine)) :
    Pulled range data (Daemon.pullAll input data (tasksFrom range.split 0 (range.chunks mine))) task := by
  obtain ⟨before, c, after, parts, rfl⟩ := mem_tasksFrom.mp member
  rw [Nat.zero_add]
  refine ⟨_, c, rfl, chunks_inside range mine c (by simp [parts]), ?_⟩
  rw [(toNat_localOffset parts).1]
  exact pread_pullAll whole announced parts

/-- The chunks in `touched` have got what their local writes stored of their slices, and
nothing else has changed. -/
structure Landed (range : IoRange) (data : List Byte) (path : Str) (pwrite : Word → ChunkStorage.PwriteOutcome) (touched : List Nat)
    (before after : Storage) : Prop where
  reached : ∀ c ∈ touched, stored after (dirName path) (c % 2 ^ 32) = some (written (stored before (dirName path) (c % 2 ^ 32))
    (landed (pwrite (.ofNat 64 c)) (slice range data c)) (range.split.pos c))
  others : ∀ dir target, (dir = dirName path → target ∉ touched.map (· % 2 ^ 32)) → stored after dir target = stored before dir target

/-- The chunks in `touched` have got their slices, nothing else has changed. -/
def Stored (range : IoRange) (data : List Byte) (path : Str) (touched : Nat → Prop) [DecidablePred touched]
    (before after : Storage) : Prop :=
  ∀ dir c, stored after dir c = if dir = dirName path ∧ touched c
    then some (written (stored before dir c) (slice range data c) (range.split.pos c)) else stored before dir c

/-- The tasks of one request, in whatever order the pool runs them. -/
theorem runTasks_spec {bulk : List Byte} (pool : IoPool) (file : Storable path) (ndebug : Bool)
    (whole : data.length = range.size) (tasks : List Task) (pulled : ∀ task ∈ tasks, Pulled range data bulk task)
    (distinct : ((tasks.map (·.chnkId.toNat)).map (· % 2 ^ 32)).Nodup) (valid : WellFormed storage) :
    ∃ after, Daemon.runTasks ndebug path bulk pool tasks storage =
        (some (tasks.map fun task => (task, eventual (pool.pwrite task.chnkId) (slice range data task.chnkId.toNat))), after) ∧
      WellFormed after ∧ Landed range data path pool.pwrite (tasks.map (·.chnkId.toNat)) storage after := by
  induction tasks generalizing storage with
  | nil => exact ⟨storage, rfl, valid, nofun, fun _ _ _ => rfl⟩
  | cons task tasks ih =>
    obtain ⟨packed, c, rfl, inside, found⟩ := (pulled task (by simp)).exists_chunk
    have chnkId := (@toNat_taskAt _ _ packed inside.1 inside.2).1
    have word : (taskAt range.split packed c).chnkId = .ofNat 64 c := rfl
    obtain ⟨between, wrote, kept, first⟩ :=
      writeFileAbt_landed valid file ndebug (pool.pwrite (taskAt range.split packed c).chnkId) inside found whole
    simp only [List.map_cons, List.nodup_cons, chnkId] at distinct
    obtain ⟨absent, distinct⟩ := distinct
    obtain ⟨after, ran, finished, rest⟩ :=
      ih (fun other member => pulled other (List.mem_cons_of_mem _ member)) distinct kept
    refine ⟨after, ?_, finished, ?_, ?_⟩
    · rw [Daemon.runTasks, wrote]
      simp only [ran, List.map_cons, chnkId]
    · intro other member
      rw [List.map_cons, chnkId, List.mem_cons] at member
      rcases member with rfl | member
      -- the later tasks have other chunk files and leave this one alone
      · rw [rest.others _ _ fun _ => absent, first, if_pos ⟨rfl, rfl⟩, word]
      · have different : other % 2 ^ 32 ≠ c % 2 ^ 32 := by
          intro same
          exact absent (same ▸ List.mem_map_of_mem member)
        rw [rest.reached other member, first, if_neg fun here => different here.2]
    · intro dir target outside
      simp only [List.map_cons, chnkId, List.mem_cons, not_or] at outside
      rw [rest.others dir target fun same => (outside same).2, first, if_neg fun here => (outside here.1).1 here.2]

private theorem lookup_map_self {α β : Type} [BEq α] [LawfulBEq α] (f : α → β) {key : α} {keys : List α} (member : key ∈ keys) :
    (keys.map fun other => (other, f other)).lookup key = some (f key) := by
  induction keys with
  | nil => cases member
  | cons first keys ih =>
    rw [List.map_cons, List.lookup_cons]
    by_cases same : key = first
    · simp [same]
    · rw [beq_eq_false_iff_ne.mpr same]
      exact ih (List.mem_of_ne_of_mem same member)

theorem awaitWrites_counts (counts : List Nat) :
    Daemon.awaitWrites (counts.map fun count : Nat => (count : Int)) = (0, .ofNat 64 counts.sum) := by
  induction counts with
  | nil => rfl
  | cons count counts ih =>
    have positive : ¬ ((count : Int) < 0) := by omega
    simp only [List.map_cons, Daemon.awaitWrites, ih, if_neg positive, List.sum_cons, BitVec.ofInt_natCast, BitVec.ofNat_add]

/-- One request, with every way the local writes may come out. -/
theorem rpcSrvWrite_landed {deployment : Deployment} (pool : IoPool) {final : State} (file : Storable path)
    (whole : data.length = range.size) (distinct : ((range.chunks mine).map (· % 2 ^ 32)).Nodup)
    (announced : Announces range mine input) (named : input.path = path)
    (ran : run deployment.strHash deployment.forwarding input = some final)
    (tasks : final.tasks = tasksFrom range.split 0 (range.chunks mine)) (valid : WellFormed storage) :
    ∃ after, Daemon.rpcSrvWrite deployment pool input data storage =
        (some (Daemon.awaitWrites ((range.chunks mine).map fun c => eventual (pool.pwrite (.ofNat 64 c)) (slice range data c))), after) ∧
      WellFormed after ∧ Landed range data path pool.pwrite (range.chunks mine) storage after := by
  have perm := pool.order_perm final.tasks
  have ids : final.tasks.map (·.chnkId.toNat) = range.chunks mine := by
    rw [tasks]
    exact toNat_chnkId_tasksFrom (chunks_inside range mine) 0
  have pulled : ∀ task ∈ pool.order final.tasks, Pulled range data (Daemon.pullAll input data final.tasks) task := by
    intro task member
    rw [perm.mem_iff, tasks] at member
    rw [tasks]
    exact pulled_of_mem whole announced member
  have permIds : ((pool.order final.tasks).map (·.chnkId.toNat)).Perm (range.chunks mine) := ids ▸ perm.map _
  obtain ⟨after, done, kept, changed⟩ := runTasks_spec pool file deployment.ndebug whole _ pulled
    ((permIds.map _).nodup_iff.mpr distinct) valid
  refine ⟨after, ?_, kept, ?_, ?_⟩
  · have answers : final.tasks.map (fun task => (((pool.order final.tasks).map fun task =>
          (task, eventual (pool.pwrite task.chnkId) (slice range data task.chnkId.toNat))).lookup task).getD 0) =
        (range.chunks mine).map fun c => eventual (pool.pwrite (.ofNat 64 c)) (slice range data c) := by
      rw [← ids, List.map_map]
      refine List.map_congr_left fun task member => ?_
      rw [lookup_map_self _ (perm.mem_iff.mpr member), Option.getD_some, Function.comp_apply, BitVec.ofNat_toNat, BitVec.setWidth_eq]
    rw [Daemon.rpcSrvWrite, ran, Option.elim_some, Daemon.finishWrite, named, done]
    simp only [answers]
  · exact fun c member => changed.reached c (permIds.mem_iff.mpr member)
  · intro dir target outside
    refine changed.others dir target fun same member => outside same ?_
    exact (permIds.map _).mem_iff.mp member

theorem rpcSrvWrite_spec {deployment : Deployment} {pool : IoPool} {final : State} (file : Storable path)
    (complete : Complete pool) (whole : data.length = range.size) (narrow : range.split.last < 2 ^ 32)
    (announced : Announces range mine input) (named : input.path = path)
    (ran : run deployment.strHash deployment.forwarding input = some final)
    (tasks : final.tasks = tasksFrom range.split 0 (range.chunks mine)) (valid : WellFormed storage) :
    ∃ after, Daemon.rpcSrvWrite deployment pool input data storage =
        (some (0, .ofNat 64 (range.split.total (range.chunks mine))), after) ∧ WellFormed after ∧
      Stored range data path (· ∈ range.chunks mine) storage after := by
  have inside := chunks_inside range mine
  have same : ∀ c ∈ range.chunks mine, c % 2 ^ 32 = c := fun c member => Nat.mod_eq_of_lt (by have := (inside c member).2; omega)
  have numbers : (range.chunks mine).map (· % 2 ^ 32) = range.chunks mine := (List.map_congr_left same).trans (List.map_id _)
  obtain ⟨after, answered, kept, changed⟩ := rpcSrvWrite_landed pool file whole
    (by rw [numbers]; exact owned_nodup _ _ _) announced named ran tasks valid
  refine ⟨after, ?_, kept, fun dir c => ?_⟩
  · have sizes : (range.chunks mine).map (fun c => eventual (pool.pwrite (.ofNat 64 c)) (slice range data c)) =
        ((range.chunks mine).map range.split.size).map fun count : Nat => (count : Int) := by
      rw [List.map_map]
      exact List.map_congr_left fun c member => (landed_of_complete (complete _) (inside c member) whole).2
    rw [answered, sizes, awaitWrites_counts]
    rfl
  · split
    next here =>
      have reached := changed.reached c here.2
      rwa [same c here.2, (landed_of_complete (complete _) (inside c here.2) whole).1, ← here.1] at reached
    next away =>
      refine changed.others dir c fun here member => away ⟨here, ?_⟩
      rwa [numbers] at member

/-- A task of a file whose flattened name is too long finds no directory. -/
theorem writeFileAbt_long {bulk : List Byte} {packed c : Nat} (valid : WellFormed storage) (file : IsFilePath path)
    (long : LocalFs.nameMax < (dirName path).length) (ndebug : Bool) (outcome : ChunkStorage.PwriteOutcome)
    (inside : range.split.first ≤ c ∧ c ≤ range.split.last) :
    Daemon.writeFileAbt ndebug path bulk outcome (taskAt range.split packed c) storage =
      (some (-LocalFs.Errno.enametoolong.value), storage) := by
  have fits : range.split.pos c +
      (ByteFile.pread bulk (range.split.size c) (taskAt range.split packed c).buf.toNat).length ≤ chunksize := by
    have short := range.split.pos_add_size_le c
    have positive := range.split.size_pos inside.1 inside.2
    rw [range.split_block] at short
    rw [ByteFile.length_pread]
    omega
  obtain ⟨_, size, off, _⟩ := @toNat_taskAt _ _ packed inside.1 inside.2
  rw [Daemon.writeFileAbt, size, off, writeChunk_long valid file long ndebug _ fits]

theorem runTasks_long {bulk : List Byte} (pool : IoPool) (valid : WellFormed storage) (file : IsFilePath path)
    (long : LocalFs.nameMax < (dirName path).length) (ndebug : Bool) (tasks : List Task)
    (pulled : ∀ task ∈ tasks, Pulled range data bulk task) :
    Daemon.runTasks ndebug path bulk pool tasks storage =
      (some (tasks.map fun task => (task, -LocalFs.Errno.enametoolong.value)), storage) := by
  induction tasks with
  | nil => rfl
  | cons task tasks ih =>
    obtain ⟨packed, c, rfl, inside, _⟩ := (pulled task (by simp)).exists_chunk
    rw [Daemon.runTasks, writeFileAbt_long valid file long ndebug _ inside]
    simp only [ih fun other member => pulled other (List.mem_cons_of_mem _ member), List.map_cons]

theorem awaitWrites_refused {errno : LocalFs.Errno} {α : Type} {tasks : List α} (some : tasks ≠ []) :
    Daemon.awaitWrites (tasks.map fun _ => -errno.value) = (errno.value, 0) := by
  obtain ⟨first, rest, rfl⟩ := List.exists_cons_of_ne_nil some
  have negative : -errno.value < 0 := by cases errno <;> decide
  rw [List.map_cons, Daemon.awaitWrites, if_pos negative, neg_neg]

/-- A request for such a file stores nothing. -/
theorem rpcSrvWrite_long {deployment : Deployment} (pool : IoPool) {final : State} (file : IsFilePath path)
    (long : LocalFs.nameMax < (dirName path).length) (whole : data.length = range.size)
    (announced : Announces range mine input) (named : input.path = path)
    (ran : run deployment.strHash deployment.forwarding input = some final)
    (tasks : final.tasks = tasksFrom range.split 0 (range.chunks mine)) (valid : WellFormed storage) (some : range.chunks mine ≠ []) :
    Daemon.rpcSrvWrite deployment pool input data storage = (.some (LocalFs.Errno.enametoolong.value, 0), storage) := by
  have perm := pool.order_perm final.tasks
  have pulled : ∀ task ∈ pool.order final.tasks, Pulled range data (Daemon.pullAll input data final.tasks) task := by
    intro task member
    rw [perm.mem_iff, tasks] at member
    rw [tasks]
    exact pulled_of_mem whole announced member
  have created : final.tasks ≠ [] := by
    intro none_created
    have ids := @toNat_chnkId_tasksFrom range _ (chunks_inside range mine) 0
    rw [← tasks, none_created] at ids
    exact some ids.symm
  have answers : final.tasks.map (fun task => (((pool.order final.tasks).map fun task =>
      (task, -LocalFs.Errno.enametoolong.value)).lookup task).getD 0) = final.tasks.map fun _ => -LocalFs.Errno.enametoolong.value := by
    refine List.map_congr_left fun task member => ?_
    rw [lookup_map_self _ (perm.mem_iff.mpr member), Option.getD_some]
  rw [Daemon.rpcSrvWrite, ran, Option.elim_some, Daemon.finishWrite, named, runTasks_long pool valid file long _ _ pulled]
  simp only [answers, awaitWrites_refused created]

end Write

/-- Every backend keeps the shape of a chunk store, and every daemon serves. -/
structure Healthy (cluster : Cluster) : Prop where
  stores : ∀ backend, WellFormed (cluster.storage backend)
  up : cluster.Up

theorem healthy_fresh : Healthy .fresh := ⟨fun _ => wellFormed_root, Cluster.up_fresh⟩

theorem stored_fresh (backend : Nat) (dir : Str) (c : Nat) : stored (Cluster.fresh.storage backend) dir c = none := by
  rw [stored, Cluster.fresh, LocalFs.FileTree.get_insert, if_neg (List.cons_ne_nil _ _)]
  rfl

theorem Healthy.setStore {cluster : Cluster} {backend : Nat} {store : Storage} (healthy : Healthy cluster)
    (valid : WellFormed store) : Healthy (cluster.setStore backend store) := by
  refine ⟨fun other => ?_, healthy.up⟩
  rw [Cluster.storage_setStore]
  by_cases here : other = backend
  · rw [here, Function.update_self]
    exact valid
  · rw [Function.update_of_ne here]
    exact healthy.stores other

section Cluster
variable {deployment : Deployment} {client : Client deployment} {path : Str} {range : IoRange} {targets : List Nat}
  {request : Nat → DataIn} {final : Nat → State} {data : List Byte} {pools : Nat → IoPool} {cluster : Cluster}

/-- The chunks of the range that `client` keeps on the given hosts have got their
slices, nothing else has changed in any store. -/
def Wrote (client : Client deployment) (path : Str) (range : IoRange) (data : List Byte) (hosts : List Nat)
    (before after : Cluster) : Prop :=
  ∀ backend dir c, stored (after.storage backend) dir c =
    if dir = dirName path ∧ (range.split.first ≤ c ∧ c ≤ range.split.last) ∧ client.locateData path c ∈ hosts ∧
      deployment.backend (client.locateData path c) = backend
    then some (written (stored (before.storage backend) dir c) (slice range data c) (range.split.pos c))
    else stored (before.storage backend) dir c

theorem handle_writeData (file : Storable path) (complete : ∀ host, Complete (pools host))
    (whole : data.length = range.size) (narrow : range.split.last < 2 ^ 32)
    (dispatch : Dispatch client path range targets request final) {target : Nat} (member : target ∈ targets)
    (healthy : Healthy cluster) :
    ∃ after, (Cluster.server deployment pools).handle target (.writeData (request target) data) cluster =
        (some (0, .ofNat 64 (range.split.total (range.chunks fun c => decide (client.locateData path c = target)))), after) ∧
      Healthy after ∧ after.mdb = cluster.mdb ∧ Wrote client path range data [target] cluster after := by
  obtain ⟨store, answered, kept, changed⟩ := rpcSrvWrite_spec file (complete target) whole narrow
    (dispatch.addressed target).announces (dispatch.addressed target).path (dispatch.runs target member)
    (dispatch.tasks target member) (healthy.stores (deployment.backend target))
  refine ⟨cluster.setStore (deployment.backend target) store, ?_, healthy.setStore kept, rfl, ?_⟩
  · exact Cluster.handle_of_some (healthy.up target) (by simp only [Cluster.serve, answered])
  · intro backend dir c
    by_cases here : backend = deployment.backend target
    · subst here
      simp only [Cluster.storage_setStore, Function.update_self, changed dir c, range.mem_chunks, decide_eq_true_eq, List.mem_singleton]
      by_cases owner : client.locateData path c = target <;> simp [owner]
    · have away : ¬ (client.locateData path c = target ∧ deployment.backend (client.locateData path c) = backend) := by
        rintro ⟨owner, same⟩
        exact here (by rw [← same, owner])
      simp only [Cluster.storage_setStore, Function.update_of_ne here, List.mem_singleton]
      rw [if_neg fun holds => away holds.2.2]

theorem Wrote.trans {before between after : Cluster} {target : Nat} {hosts : List Nat} (absent : target ∉ hosts)
    (first : Wrote client path range data [target] before between) (rest : Wrote client path range data hosts between after) :
    Wrote client path range data (target :: hosts) before after := by
  intro backend dir c
  rw [rest backend dir c, first backend dir c]
  simp only [List.mem_cons]
  by_cases owner : client.locateData path c = target
  · simp [owner, absent]
  · simp [owner]

theorem handleAll_writeData (file : Storable path) (complete : ∀ host, Complete (pools host))
    (whole : data.length = range.size) (narrow : range.split.last < 2 ^ 32)
    (dispatch : Dispatch client path range targets request final) (hosts : List Nat) (among : hosts ⊆ targets)
    (distinct : hosts.Nodup) (healthy : Healthy cluster) :
    ∃ after, (Cluster.server deployment pools).handleAll
          (hosts.map fun target => (target, Request.writeData (request target) data)) cluster =
        (hosts.map fun target => some (0, .ofNat 64
          (range.split.total (range.chunks fun c => decide (client.locateData path c = target)))), after) ∧
      Healthy after ∧ after.mdb = cluster.mdb ∧ Wrote client path range data hosts cluster after := by
  induction hosts generalizing cluster with
  | nil => exact ⟨cluster, rfl, healthy, rfl, fun _ _ _ => by simp⟩
  | cons target hosts ih =>
    obtain ⟨absent, distinct⟩ := List.nodup_cons.mp distinct
    obtain ⟨between, answered, kept, sameDb, first⟩ :=
      handle_writeData file complete whole narrow dispatch (among List.mem_cons_self) healthy
    obtain ⟨after, rest, finished, sameDb', others⟩ :=
      ih (fun other member => among (List.mem_cons_of_mem _ member)) distinct kept
    refine ⟨after, ?_, finished, sameDb'.trans sameDb, first.trans absent others⟩
    simp only [List.map_cons, RpcProgram.Server.handleAll, answered, rest]

theorem collectSizes_ok (sizes : List Nat) :
    ClientOps.collectSizes (sizes.map fun size => some (0, BitVec.ofNat 64 size)) = .ok (.ofNat 64 sizes.sum) := by
  induction sizes with
  | nil => rfl
  | cons size sizes ih => simp [ClientOps.collectSizes, ih, BitVec.ofNat_add]

theorem collectSizes_dispatch (dispatch : Dispatch client path range targets request final) :
    ClientOps.collectSizes (targets.map fun target => some (0, .ofNat 64
      (range.split.total (range.chunks fun c => decide (client.locateData path c = target))))) =
      .ok (.ofNat 64 range.size) := by
  rw [← dispatch.sum_total, ← collectSizes_ok, List.map_map]
  rfl

/-- What the first message of a write does. -/
def announce (client : Client deployment) (path : Str) (range : IoRange) (appendFlag : Bool) (cluster : Cluster) : Cluster :=
  cluster.setDb (client.locateFileMetadata path)
    ((cluster.mdb (client.locateFileMetadata path)).increaseSize path (.ofNat 64 (range.offset + range.size)) appendFlag)

theorem Healthy.announce (healthy : Healthy cluster) (client : Client deployment) (path : Str) (range : IoRange) (appendFlag : Bool) :
    Healthy (announce client path range appendFlag cluster) := ⟨healthy.stores, healthy.up⟩

/-- Every chunk of the range has got its slice in the store that holds it, and nothing
else has changed in any store. -/
def Overwritten (deployment : Deployment) (path : Str) (range : IoRange) (data : List Byte) (before after : Cluster) : Prop :=
  ∀ backend dir c, stored (after.storage backend) dir c =
    if dir = dirName path ∧ (range.split.first ≤ c ∧ c ≤ range.split.last) ∧ deployment.chunkBackend path c = backend
    then some (written (stored (before.storage backend) dir c) (slice range data c) (range.split.pos c))
    else stored (before.storage backend) dir c

theorem inputs_forwardWrite (dispatch : Dispatch client path range targets request final) (whole : data.length = range.size)
    (appendFlag : Bool) :
    Transfer.inputs (.forwardWrite appendFlag (.ofNat 64 range.offset) (.ofNat 64 data.length)
        (.ofNat 64 data.length + .ofNat 64 range.offset)) client path =
      some (targets.map fun target => (target, request target)) := by
  rw [Transfer.inputs, Transfer.offset_forwardWrite, Transfer.size, whole]
  exact dispatch.inputs

/-- A write announces its size to the metadata host and then sends its data to the
targets, whatever they answer. -/
theorem exec_gkfsPwrite_eq (up : cluster.Up) (dispatch : Dispatch client path range targets request final)
    (whole : data.length = range.size) (appendFlag : Bool) :
    (Cluster.server deployment pools).exec (ClientOps.gkfsPwrite client path appendFlag data (.ofNat 64 range.offset)) cluster =
      (some (ClientOps.collectSizes ((Cluster.server deployment pools).handleAll
          (targets.map fun target => (target, Request.writeData (request target) data))
          (announce client path range appendFlag cluster)).1),
        ((Cluster.server deployment pools).handleAll
          (targets.map fun target => (target, Request.writeData (request target) data))
          (announce client path range appendFlag cluster)).2) := by
  have positive : (0 : Word) < .ofNat 64 data.length := by
    have some_data := range.size_pos
    have fits := range.fits
    rw [BitVec.lt_def, Words.toNat_ofNat (by omega)]
    exact whole ▸ some_data
  have sum : BitVec.ofNat 64 data.length + BitVec.ofNat 64 range.offset = BitVec.ofNat 64 (range.offset + range.size) := by
    rw [whole, Nat.add_comm, BitVec.ofNat_add]
  have announced : (Cluster.server deployment pools).handle (client.locateFileMetadata path)
      (.updateMetadentrySize path (.ofNat 64 data.length) (.ofNat 64 range.offset) appendFlag) cluster =
      (some (0, .ofNat 64 data.length + .ofNat 64 range.offset), announce client path range appendFlag cluster) :=
    Cluster.handle_of_some (up _) (by simp only [Cluster.serve, Daemon.rpcSrvUpdateMetadentrySize, sum, announce])
  rw [ClientOps.gkfsPwrite, RpcProgram.Program.bind_eq, RpcProgram.Server.exec_bind, ClientOps.forwardUpdateMetadentrySize,
    RpcProgram.Program.bind_eq, RpcProgram.Program.call_bind, RpcProgram.Server.exec_post_one, announced]
  simp only [List.headD_cons, ne_eq, not_true_eq_false, if_false, RpcProgram.Program.pure_eq,
    RpcProgram.Server.exec_pure, ClientOps.forwardWrite, ClientOps.assertClient, positive, decide_true, Bool.or_true,
    if_true, inputs_forwardWrite dispatch whole, Option.elim_some, RpcProgram.Program.bind_eq, RpcProgram.Program.pure_bind, List.map_map,
    Function.comp_def, RpcProgram.Server.exec_post]

/-- A write on its own: every chunk of the range gets its slice, and the caller gets
the size back. -/
theorem exec_gkfsPwrite (client : Client deployment) (file : Storable path) (complete : ∀ host, Complete (pools host))
    (whole : data.length = range.size) (narrow : range.split.last < 2 ^ 32) (appendFlag : Bool) (healthy : Healthy cluster) :
    ∃ after, (Cluster.server deployment pools).exec
          (ClientOps.gkfsPwrite client path appendFlag data (.ofNat 64 range.offset)) cluster =
        (some (.ok (.ofNat 64 range.size)), after) ∧
      Healthy after ∧ after.mdb = (announce client path range appendFlag cluster).mdb ∧
      Overwritten deployment path range data cluster after := by
  obtain ⟨targets, request, final, dispatch⟩ := exists_dispatch client path range
  obtain ⟨after, ran, kept, sameDb, wrote⟩ := handleAll_writeData file complete whole narrow dispatch targets
    (List.Subset.refl _) dispatch.distinct (healthy.announce client path range appendFlag)
  refine ⟨after, ?_, kept, sameDb, ?_⟩
  · rw [exec_gkfsPwrite_eq healthy.up dispatch whole, ran, collectSizes_dispatch dispatch]
  · intro backend dir c
    rw [wrote, client.backend_locateData]
    by_cases inside : range.split.first ≤ c ∧ c ≤ range.split.last
    · have owner : client.locateData path c ∈ targets := (dispatch.mem_targets _).mpr ⟨c, inside, rfl⟩
      simp [owner, announce]
    · simp [inside, announce]

theorem collectSizes_refused {hosts : List Nat} (some : hosts ≠ []) {err : Int} (failed : err ≠ 0) :
    ClientOps.collectSizes (hosts.map fun _ => .some (err, 0)) = .error err := by
  induction hosts with
  | nil => exact absurd rfl some
  | cons host hosts ih =>
    cases hosts with
    | nil => exact if_pos failed
    | cons other hosts =>
      rw [List.map_cons, ClientOps.collectSizes.eq_def]
      simp only [ih (List.cons_ne_nil _ _)]

theorem handleAll_writeData_long (file : IsFilePath path) (long : LocalFs.nameMax < (dirName path).length)
    (whole : data.length = range.size) (dispatch : Dispatch client path range targets request final) (hosts : List Nat)
    (among : hosts ⊆ targets) (healthy : Healthy cluster) :
    (Cluster.server deployment pools).handleAll (hosts.map fun target => (target, Request.writeData (request target) data)) cluster =
      (hosts.map fun _ => some (LocalFs.Errno.enametoolong.value, 0), cluster) := by
  induction hosts with
  | nil => rfl
  | cons target hosts ih =>
    have member := among List.mem_cons_self
    have touched : (range.chunks fun c => decide (client.locateData path c = target)) ≠ [] := by
      obtain ⟨c, inside, located⟩ := (dispatch.mem_targets target).mp member
      exact List.ne_nil_of_mem (range.mem_chunks.mpr ⟨inside, decide_eq_true located⟩)
    have answered := rpcSrvWrite_long (pools target) file long whole (dispatch.addressed target).announces
      (dispatch.addressed target).path (dispatch.runs target member) (dispatch.tasks target member)
      (healthy.stores (deployment.backend target)) touched
    have here : (Cluster.server deployment pools).handle target (.writeData (request target) data) cluster =
        (some (LocalFs.Errno.enametoolong.value, 0), cluster) := by
      refine Cluster.handle_of_some (healthy.up target) ?_
      simp only [Cluster.serve, answered, Cluster.setStore, Function.update_eq_self]
    simp only [List.map_cons, RpcProgram.Server.handleAll, here, ih fun other later => among (List.mem_cons_of_mem _ later)]

/-- A file whose flattened name is too long has no contents: a write announces its size and
fails. -/
theorem exec_gkfsPwrite_long (client : Client deployment) (file : IsFilePath path) (long : LocalFs.nameMax < (dirName path).length)
    (whole : data.length = range.size) (appendFlag : Bool) (healthy : Healthy cluster) :
    (Cluster.server deployment pools).exec (ClientOps.gkfsPwrite client path appendFlag data (.ofNat 64 range.offset)) cluster =
      (some (.error LocalFs.Errno.enametoolong.value), announce client path range appendFlag cluster) := by
  obtain ⟨targets, request, final, dispatch⟩ := exists_dispatch client path range
  have asked : targets ≠ [] :=
    List.ne_nil_of_mem ((dispatch.mem_targets _).mpr ⟨range.split.first, ⟨Nat.le_refl _, range.split.first_le_last⟩, rfl⟩)
  rw [exec_gkfsPwrite_eq healthy.up dispatch whole, handleAll_writeData_long file long whole dispatch targets (List.Subset.refl _)
    (healthy.announce client path range appendFlag), collectSizes_refused asked (by decide)]

end Cluster

end GekkoFwd.Proofs.DataPath
