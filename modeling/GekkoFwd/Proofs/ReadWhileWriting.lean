import GekkoFwd.Proofs.ConcurrentWrites
import GekkoFwd.Proofs.ReadSteps

/-! Any interleaving of a read with writes to the same file. The read returns what it would have
returned on its own from a state of the stores in which each byte is the old one or comes from a
write that had not returned when the read was called. -/

namespace GekkoFwd.Proofs.ReadWhileWriting
open ChunkPartition IoPartition StorageSpec DataPath ReadAfterWrite SparseReads SrvSplit
open WriteSteps ConcurrentWrites ReadSteps ConcurrentRead
open WriteOutcome (Write)

variable {deployment : Deployment} {path : Str}

/-! Stores that have given contents. -/

theorem exists_storage {dir : Str} (short : dir.length ≤ LocalFs.nameMax) (contents : Nat → List Byte) {chunks : List Nat}
    (small : ∀ c ∈ chunks, c < 2 ^ 32 ∧ (contents c).length ≤ chunksize) :
    ∃ storage : Storage, WellFormed storage ∧ storage.get [dir] = some .dir ∧ ∀ c ∈ chunks, stored storage dir c = some (contents c) := by
  induction chunks with
  | nil =>
    have updated := fun other => LocalFs.FileTree.get_insert (AList.insert [] .dir ∅ : Storage) [dir] other .dir
    exact ⟨_, wellFormed_root.add_dir short updated, by rw [updated, if_pos rfl], fun c impossible => absurd impossible List.not_mem_nil⟩
  | cons first chunks ih =>
    obtain ⟨storage, valid, present, holds⟩ := ih fun c member => small c (List.mem_cons_of_mem _ member)
    have updated := fun other => LocalFs.FileTree.get_insert storage [dir, DecText.toText first] other (.file (contents first))
    have here := small first List.mem_cons_self
    refine ⟨_, valid.put_chunk present here.1 here.2 updated, by rw [updated, if_neg (by simp), present], fun c member => ?_⟩
    rw [stored_put_chunk updated]
    by_cases same : c = first
    · rw [same, if_pos ⟨rfl, rfl⟩]
    · rw [if_neg fun both => same both.2]
      exact holds c (List.mem_of_ne_of_mem same member)

/-- Hosts from which a read gets this from each chunk. -/
theorem exists_snapshot {range : IoRange} (file : Storable path) (narrow : range.split.last < 2 ^ 32) {found : Nat → List Byte}
    (fits : ∀ c ∈ range.split.blocks, (found c).length ≤ range.split.size c) :
    ∃ snapshot : Cluster, Healthy snapshot ∧ ∀ c ∈ range.split.blocks, foundAt deployment snapshot path range c = found c := by
  have small : ∀ c ∈ range.split.blocks, c < 2 ^ 32 ∧ (List.replicate (range.split.pos c) 0 ++ found c).length ≤ chunksize := by
    intro c member
    have block := range.split.mem_blocks.mp member
    have short := range.split.pos_add_size_le c
    have positive := range.split.size_pos block.1 block.2
    rw [range.split_block] at short
    rw [List.length_append, List.length_replicate]
    have inside := fits c member
    omega
  obtain ⟨storage, valid, _, holds⟩ := exists_storage file.short (fun c => List.replicate (range.split.pos c) 0 ++ found c) small
  refine ⟨⟨fun _ => ∅, fun _ => storage, fun _ => false⟩, ⟨fun _ => valid, fun _ => rfl⟩, fun c member => ?_⟩
  rw [foundAt, ReadAfterWrite.found, Nat.mod_eq_of_lt (small c member).1, holds c member, Option.getD_some, ByteFile.pread,
    List.drop_left' List.length_replicate, List.take_of_length_le (fits c member)]

/-- A read of bytes whose chunk numbers have 32 bits. The kernel may cut local reads short but
does not fail them. -/
structure ReadCall (deployment : Deployment) where
  client : Client deployment
  offset : Nat
  buf : List Byte
  some_buf : buf ≠ []
  ends : offset + buf.length ≤ 2 ^ 32 * chunksize
  pools : Nat → IoPool
  answers : ∀ host, Answers (pools host)

namespace ReadCall

theorem fits (read : ReadCall deployment) : read.offset + read.buf.length < 2 ^ 63 := by
  have ends := read.ends
  simp only [chunksize] at ends
  omega

def range (read : ReadCall deployment) : IoRange :=
  ⟨read.offset, read.buf.length, List.length_pos_of_ne_nil read.some_buf, read.fits⟩

theorem narrow (read : ReadCall deployment) : read.range.split.last < 2 ^ 32 := by
  have ends := read.ends
  have positive := List.length_pos_of_ne_nil read.some_buf
  refine (Nat.div_lt_iff_lt_mul read.range.split.block_pos).mpr ?_
  simp only [range, IoRange.split]
  omega

/-- Every place of the buffer is for one byte of one chunk. -/
theorem exists_piece (read : ReadCall deployment) {i : Nat} (inside : i < read.buf.length) :
    ∃ c ∈ read.range.split.blocks, ∃ k < read.range.split.size c, i = read.range.split.origin c + k := by
  obtain ⟨least, most⟩ := (read.range.split.mem_piece_origin ((read.offset + i) / chunksize) i).mpr ⟨rfl, inside⟩
  have block := inside_of_mem (Nat.le_add_right read.range.offset i) (Nat.add_lt_add_left inside _)
  exact ⟨_, read.range.split.mem_blocks.mpr block, _, Nat.sub_lt_left_of_lt_add least most, (Nat.add_sub_cancel' least).symm⟩

/-- The call as the client makes it. -/
def pread (read : ReadCall deployment) : Call deployment := ⟨read.client, read.buf, .ofNat 64 read.offset, read.pools⟩

/-- What the call returns if nothing else happens. -/
def alone (read : ReadCall deployment) (path : Str) (cluster : Cluster) : Option (SysResult Word × List Byte) :=
  ((Cluster.server deployment read.pools).exec (ClientOps.gkfsPread read.client path read.buf (.ofNat 64 read.offset)) cluster).1

end ReadCall

section Phases
variable {read : ReadCall deployment} {may : Nat → Option Byte → Prop} {targets : List Nat} {request : Nat → DataIn}
  {final : Nat → SrvSplit.State} {cluster : Cluster} {phase : Phase}

/-- The call returned what is in some stores whose bytes are such that they may be. -/
def Returns (read : ReadCall deployment) (path : Str) (may : Nat → Option Byte → Prop) (result : SysResult Word) (buf : List Byte) : Prop :=
  ∃ snapshot : Cluster, Healthy snapshot ∧
    (∀ i < read.buf.length, may (read.offset + i) (byteAt deployment snapshot path (read.offset + i))) ∧
    read.alone path snapshot = some (result, buf)

/-- What is known of the call. -/
def PhaseOk (read : ReadCall deployment) (path : Str) (may : Nat → Option Byte → Prop) (cluster : Cluster) : Phase → Prop
  | .called => True
  | .waiting jobs => ∃ targets request final, Dispatch read.client path read.range targets request final ∧
      List.Forall₂ (JobOk read.client path read.range may request cluster) targets jobs
  | .returned result buf => Returns read path may result buf

theorem PhaseOk.mono {after : Cluster} (valid : PhaseOk read path may cluster phase) (grows : Grows path cluster after) :
    PhaseOk read path may after phase := by
  cases phase with
  | called => trivial
  | waiting jobs =>
    obtain ⟨targets, request, final, dispatch, each⟩ := valid
    exact ⟨targets, request, final, dispatch, each.imp fun _ _ valid => valid.mono grows⟩
  | returned result buf => exact valid

/-- The values that the hosts have are such that the bytes may have. -/
def Allowed (deployment : Deployment) (path : Str) (may : Nat → Option Byte → Prop) (cluster : Cluster) : Prop :=
  ∀ x, may x (byteAt deployment cluster path x)

theorem Allowed.shows {range : IoRange} {client : Client deployment} {target : Nat} (allowed : Allowed deployment path may cluster) :
    ∀ c ∈ mine client path range target, Shows path range may (cluster.storage (deployment.backend target)) c := by
  intro c member k small
  obtain ⟨chunk, index⟩ := div_mod_of_piece small
  have value := allowed (place range c k)
  rw [byteAt, held, place, chunk, index, ← client.backend_locateData, of_decide_eq_true (range.mem_chunks.mp member).2] at value
  exact value

theorem answerOf_congr {range : IoRange} {client : Client deployment} {target : Nat} {found other : Nat → List Byte}
    (same : ∀ c ∈ mine client path range target, found c = other c) :
    answerOf client path range found target = answerOf client path range other target := by
  have counts := List.map_congr_left fun c member => congrArg List.length (same c member)
  have kept := List.filter_congr fun c member => congrArg (fun bytes : List Byte => bytes != []) (same c member)
  have pushes : ∀ c ∈ (mine client path range target).filter (fun c => other c != []),
      (range.split.origin c, found c) = (range.split.origin c, other c) := by
    intro c member
    rw [same c (List.mem_of_mem_filter member)]
  rw [answerOf, answerOf, counts, kept, List.map_congr_left pushes]

/-- What the hosts have answered, as the parts of one whole. -/
theorem exists_found {replies : List (Int × Word × List (Nat × List Byte))} (distinct : targets.Nodup)
    (each : List.Forall₂ (JobOk read.client path read.range may request cluster) targets (replies.map .answered)) :
    ∃ found : Nat → List Byte,
      (∀ target ∈ targets, ∀ c ∈ mine read.client path read.range target, Seen read.range may c (found c)) ∧
      replies = targets.map (answerOf read.client path read.range found) := by
  rw [List.forall₂_map_right_iff] at each
  induction each with
  | nil => exact ⟨fun _ => [], fun target impossible => absurd impossible List.not_mem_nil, rfl⟩
  | @cons target reply targets replies here rest ih =>
    obtain ⟨absent, distinct⟩ := List.nodup_cons.mp distinct
    obtain ⟨found, seen, rfl⟩ := here
    obtain ⟨others, seenAll, rfl⟩ := ih distinct
    have own : ∀ host, ∀ c ∈ mine read.client path read.range host, read.client.locateData path c = host :=
      fun host c member => of_decide_eq_true (read.range.mem_chunks.mp member).2
    have away : ∀ host ∈ targets, ∀ c ∈ mine read.client path read.range host,
        (if read.client.locateData path c = target then found c else others c) = others c := by
      intro host member c owned
      refine if_neg fun same => absent ?_
      rwa [← same, own host c owned]
    refine ⟨fun c => if read.client.locateData path c = target then found c else others c, fun host member c owned => ?_, ?_⟩
    · rcases List.mem_cons.mp member with rfl | later
      · simp only [own _ c owned, if_true]
        exact seen c owned
      · simp only [away host later c owned]
        exact seenAll host later c owned
    · rw [List.map_cons]
      congr 1
      · exact answerOf_congr fun c owned => (if_pos (own target c owned)).symm
      · exact List.map_congr_left fun host member => answerOf_congr fun c owned => (away host member c owned).symm

/-- The client makes of the answers what it makes of those of an undisturbed read. -/
theorem PhaseOk.finish {replies : List (Int × Word × List (Nat × List Byte))} (file : Storable path)
    (valid : PhaseOk read path may cluster (.waiting (replies.map .answered))) :
    PhaseOk read path may cluster (.returned (ClientOps.collectSizes (replies.map fun reply => some (reply.1, reply.2.1)))
      (ClientOps.receive read.buf (replies.map some))) := by
  obtain ⟨targets, request, final, dispatch, each⟩ := valid
  obtain ⟨found, seen, rfl⟩ := exists_found dispatch.distinct each
  have all : ∀ c ∈ read.range.split.blocks, Seen read.range may c (found c) := by
    intro c member
    have inside := read.range.split.mem_blocks.mp member
    refine seen _ ((dispatch.mem_targets _).mpr ⟨c, inside, rfl⟩) c (read.range.mem_chunks.mpr ⟨inside, decide_eq_true rfl⟩)
  obtain ⟨snapshot, healthy, same⟩ := @exists_snapshot deployment path _ file read.narrow found fun c member => (all c member).fits
  refine ⟨snapshot, healthy, fun i inside => ?_, ?_⟩
  · obtain ⟨c, member, k, small, rfl⟩ := read.exists_piece inside
    have value := (all c member).each k small
    have short : read.range.offset + (read.range.split.origin c + k) < 2 ^ 32 * chunksize :=
      Nat.lt_of_lt_of_le (Nat.add_lt_add_left inside _) read.ends
    rw [← same c member, getElem?_foundAt small, readAt, Nat.mod_eq_of_lt short] at value
    exact value
  · have inputs : Transfer.inputs (.forwardRead (.ofNat 64 read.offset) (.ofNat 64 read.buf.length)) read.client path =
        some (targets.map fun target => (target, request target)) := dispatch.inputs
    have answered := handleAll_readData file read.answers dispatch healthy targets (List.Subset.refl _)
    have parts : targets.map (answerOf read.client path read.range found) = targets.map
        (readAnswer read.client snapshot path read.range) := by
      refine List.map_congr_left fun target _ => ?_
      refine answerOf_congr fun c owned => (same c ?_).symm
      exact read.range.split.mem_blocks.mpr (read.range.mem_chunks.mp owned).1
    rw [parts]
    simp only [ReadCall.alone, ClientOps.gkfsPread, ClientOps.forwardRead, inputs, Option.elim_some, List.map_map, Function.comp_def,
      RpcProgram.Server.exec_post, answered, RpcProgram.Program.pure_eq, RpcProgram.Server.exec_pure, Option.map_some]

theorem PhaseOk.job {before after : List Job} {job stepped : Job} (file : Storable path) (healthy : Healthy cluster)
    (allowed : Allowed deployment path may cluster) (valid : PhaseOk read path may cluster (.waiting (before ++ job :: after)))
    (step : JobStep read.pread cluster job stepped) : PhaseOk read path may cluster (.waiting (before ++ stepped :: after)) := by
  obtain ⟨targets, request, final, dispatch, each⟩ := valid
  obtain ⟨left, target, right, rfl, earlier, here, later⟩ := forall₂_split each
  have member : target ∈ left ++ target :: right := List.mem_append_right _ List.mem_cons_self
  have kept := here.step file read.answers dispatch read.narrow member healthy allowed.shows step
  exact ⟨_, request, final, dispatch, List.rel_append earlier (.cons kept later)⟩

theorem PhaseOk.post {requests : List (Nat × DataIn)}
    (split : Transfer.inputs (.forwardRead read.pread.offset (.ofNat 64 read.pread.buf.length)) read.pread.client path = some requests) :
    PhaseOk read path may cluster (.waiting (requests.map fun request => .posted request.1 request.2)) := by
  obtain ⟨targets, request, final, dispatch⟩ := exists_dispatch read.client path read.range
  cases split.symm.trans dispatch.inputs
  refine ⟨targets, request, final, dispatch, ?_⟩
  rw [List.map_map, List.forall₂_map_right_iff, List.forall₂_same]
  exact fun target _ => ⟨rfl, rfl⟩

end Phases

/-! What the writes do to the bytes. -/

section World
variable {n : Nat} {calls : Fin n → Write deployment} {initial : Cluster} {start world next : ConcurrentWrite.State n}
  {log : List (Fin n × Nat)}

/-- A write that was under way, or not yet begun. -/
def Pending (world : ConcurrentWrite.State n) (i : Fin n) : Prop := ∀ result, world.phases i ≠ .returned result

/-- The values that a byte may have after such a state: its value there, those that pending writes
have for it, and zero where there was nothing. -/
def MaySee (path : Str) (calls : Fin n → Write deployment) (start : ConcurrentWrite.State n) (x : Nat) (value : Option Byte) : Prop :=
  value = byteAt deployment start.cluster path x ∨
    (∃ i, Pending start i ∧ Covers (calls i) x ∧ value = (calls i).data[x - (calls i).offset]?) ∨
    (byteAt deployment start.cluster path x = none ∧ value = some 0)

/-- A step changes the stores by at most one slice, of a write that has not returned. -/
theorem step_cases (file : IsFilePath path) (narrow : ∀ i, (calls i).range.split.last < 2 ^ 32)
    (invariant : Invariant path calls initial world log)
    (step : ConcurrentWrite.Step path (fun i => pwriteCall (calls i)) world next) :
    contents next.cluster = contents world.cluster ∨
      ∃ i c, Pending world i ∧ c ∈ (calls i).range.split.blocks ∧
        contents next.cluster = put path (calls i) c (contents world.cluster) := by
  cases step with
  | @update i retSize after requests phase handled split =>
    cases handled.symm.trans (handle_update invariant.healthy.up (calls i) path)
    exact .inl rfl
  | @job i before later job stepped cluster phase step =>
    have valid := invariant.phases i
    rw [phase] at valid
    rcases phaseOk_job file (narrow i) invariant.healthy valid step with ⟨rfl, _⟩ | ⟨c, member, _, _, changed, _⟩
    · exact .inl rfl
    · refine .inr ⟨i, c, fun result returned => ?_, member, changed⟩
      cases phase.symm.trans returned
  | finish phase => exact .inl rfl
  | collapse host key count => exact .inl rfl

theorem pending_of_step (step : ConcurrentWrite.Step path (fun i => pwriteCall (calls i)) world next) {i : Fin n}
    (later : Pending next i) : Pending world i := by
  intro result returned
  have moved : ∀ {j : Fin n} {phase : ConcurrentWrite.Phase}, world.phases j ≠ .returned result →
      Function.update world.phases j phase i = .returned result := by
    intro j phase active
    have apart : i ≠ j := by
      rintro rfl
      exact active returned
    rw [Function.update_of_ne apart, returned]
  cases step with
  | update phase handled split => exact later result (moved (by simp [phase]))
  | job phase step => exact later result (moved (by simp [phase]))
  | finish phase => exact later result (moved (by simp [phase]))
  | collapse host key count => exact later result returned

variable (file : IsFilePath path) (narrow : ∀ i, (calls i).range.split.last < 2 ^ 32)
include file narrow

theorem grows_of_step (invariant : Invariant path calls initial world log)
    (step : ConcurrentWrite.Step path (fun i => pwriteCall (calls i)) world next) : Grows path world.cluster next.cluster := by
  intro backend c present
  change (contents next.cluster backend (dirName path) c).isSome
  rcases step_cases file narrow invariant step with same | ⟨i, d, _, _, changed⟩
  · rw [same]
    exact present
  · rw [changed, put]
    split
    next => rfl
    next => exact present

theorem maySee_of_step (invariant : Invariant path calls initial world log)
    (pending : ∀ i, Pending world i → Pending start i)
    (seen : ∀ x, MaySee path calls start x (byteAt deployment world.cluster path x))
    (step : ConcurrentWrite.Step path (fun i => pwriteCall (calls i)) world next) (x : Nat) :
    MaySee path calls start x (byteAt deployment next.cluster path x) := by
  have before := seen x
  rw [byteAt_eq] at before ⊢
  rcases step_cases file narrow invariant step with same | ⟨i, c, active, member, changed⟩
  · rwa [same]
  · rw [changed]
    rcases byteOf_put member (contents world.cluster) x with (kept | ⟨hole, filled⟩) | ⟨covered, written⟩
    · rwa [kept]
    · rw [hole] at before
      rcases before with same | ⟨j, _, covered, value⟩ | ⟨_, impossible⟩
      · exact .inr (.inr ⟨same.symm, filled⟩)
      · have present : x - (calls j).offset < (calls j).data.length := Nat.sub_lt_left_of_lt_add covered.1 covered.2
        rw [List.getElem?_eq_getElem present] at value
        cases value
      · cases impossible
    · exact .inr (.inl ⟨i, pending i active, covered, written⟩)

end World

/-! Runs of the read together with the writes. -/

section Runs
variable {n : Nat} {calls : Fin n → Write deployment} {initial : Cluster} {start : ConcurrentWrite.State n}
  {read : ReadCall deployment} {state next : State n}

/-- What holds in every state after the call in `start`. -/
structure RunOk (path : Str) (calls : Fin n → Write deployment) (initial : Cluster) (start : ConcurrentWrite.State n)
    (read : ReadCall deployment) (state : State n) : Prop where
  writes : ∃ log, Invariant path calls initial state.writes log
  pending : ∀ i, Pending state.writes i → Pending start i
  allowed : Allowed deployment path (MaySee path calls start) state.writes.cluster
  phase : PhaseOk read path (MaySee path calls start) state.writes.cluster state.phase

theorem runOk_called {log : List (Fin n × Nat)} (invariant : Invariant path calls initial start log) (read : ReadCall deployment) :
    RunOk path calls initial start read ⟨start, .called⟩ :=
  ⟨⟨log, invariant⟩, fun _ pending => pending, fun _ => .inl rfl, trivial⟩

theorem RunOk.step (file : Storable path) (narrow : ∀ i, (calls i).range.split.last < 2 ^ 32)
    (valid : RunOk path calls initial start read state) (step : Step path (fun i => pwriteCall (calls i)) read.pread state next) :
    RunOk path calls initial start read next := by
  obtain ⟨⟨log, invariant⟩, pending, allowed, phase⟩ := valid
  cases step with
  | post split => exact ⟨⟨log, invariant⟩, pending, allowed, .post split⟩
  | job step => exact ⟨⟨log, invariant⟩, pending, allowed, phase.job file invariant.healthy allowed step⟩
  | finish => exact ⟨⟨log, invariant⟩, pending, allowed, phase.finish file⟩
  | write step =>
    obtain ⟨extended, kept⟩ := invariant.step file.toIsFilePath narrow step
    refine ⟨⟨extended, kept⟩, fun i later => pending i (pending_of_step step later), ?_,
      phase.mono (grows_of_step file.toIsFilePath narrow invariant step)⟩
    exact maySee_of_step file.toIsFilePath narrow invariant pending allowed step

theorem RunOk.run (file : Storable path) (narrow : ∀ i, (calls i).range.split.last < 2 ^ 32)
    (valid : RunOk path calls initial start read state)
    (steps : Relation.ReflTransGen (Step path (fun i => pwriteCall (calls i)) read.pread) state next) :
    RunOk path calls initial start read next := by
  induction steps with
  | refl => exact valid
  | tail _ step ih => exact ih.step file narrow step

/-- The requests can be answered one after the other. -/
theorem jobs_can_finish {world : ConcurrentWrite.State n} {jobs : List Job} {replies : List (Int × Word × List (Nat × List Byte))}
    (each : List.Forall₂ (fun job reply => Relation.ReflTransGen (JobStep read.pread world.cluster) job (.answered reply)) jobs replies)
    (done : List (Int × Word × List (Nat × List Byte))) :
    Relation.ReflTransGen (Step path (fun i => pwriteCall (calls i)) read.pread) ⟨world, .waiting (done.map .answered ++ jobs)⟩
      ⟨world, .waiting ((done ++ replies).map .answered)⟩ := by
  induction each generalizing done with
  | nil => rw [List.append_nil, List.append_nil]
  | @cons job reply jobs replies here rest ih =>
    have first : Relation.ReflTransGen (Step path (fun i => pwriteCall (calls i)) read.pread)
        ⟨world, .waiting (done.map .answered ++ job :: jobs)⟩ ⟨world, .waiting (done.map .answered ++ .answered reply :: jobs)⟩ :=
      Relation.ReflTransGen.lift (fun job => (⟨world, .waiting (done.map .answered ++ job :: jobs)⟩ : State n))
        (fun _ _ step => Step.job step) _ _ here
    have later := ih (done ++ [reply])
    rw [List.map_append, List.append_assoc, List.append_assoc] at later
    exact first.trans later

/-- No run gets stuck: from every state the read can return. -/
theorem RunOk.can_return (file : Storable path) (narrow : ∀ i, (calls i).range.split.last < 2 ^ 32)
    (valid : RunOk path calls initial start read state) :
    ∃ result buf, Relation.ReflTransGen (Step path (fun i => pwriteCall (calls i)) read.pread) state ⟨state.writes,
      .returned result buf⟩ := by
  have waiting : ∀ {world jobs}, RunOk path calls initial start read ⟨world, .waiting jobs⟩ →
      ∃ result buf, Relation.ReflTransGen (Step path (fun i => pwriteCall (calls i)) read.pread) ⟨world, .waiting jobs⟩
        ⟨world, .returned result buf⟩ := by
    rintro world jobs ⟨⟨_, invariant⟩, _, allowed, targets, request, final, dispatch, each⟩
    have answers : ∀ (hosts : List Nat) (jobs : List Job), hosts ⊆ targets →
        List.Forall₂ (JobOk read.client path read.range (MaySee path calls start) request world.cluster) hosts jobs →
        ∃ replies, List.Forall₂ (fun job reply => Relation.ReflTransGen (JobStep read.pread world.cluster) job
          (.answered reply)) jobs replies := by
      intro hosts jobs among each
      induction each with
      | nil => exact ⟨[], .nil⟩
      | @cons host job hosts jobs here rest ih =>
        obtain ⟨replies, rest⟩ := ih fun host member => among (List.mem_cons_of_mem _ member)
        obtain ⟨reply, steps⟩ : ∃ reply, Relation.ReflTransGen (JobStep read.pread world.cluster) job (.answered reply) :=
          job_can_finish file read.answers dispatch read.narrow (among List.mem_cons_self) invariant.healthy allowed.shows here
        exact ⟨reply :: replies, .cons steps rest⟩
    obtain ⟨replies, each⟩ := answers targets jobs (List.Subset.refl _) each
    exact ⟨_, _, (jobs_can_finish each []).tail .finish⟩
  obtain ⟨world, phase⟩ := state
  cases phase with
  | returned result buf => exact ⟨result, buf, .refl⟩
  | waiting jobs => exact waiting valid
  | called =>
    obtain ⟨targets, request, final, dispatch⟩ := exists_dispatch read.client path read.range
    have step : Step path (fun i => pwriteCall (calls i)) read.pread ⟨world, .called⟩ _ := .post dispatch.inputs
    obtain ⟨result, buf, steps⟩ := waiting (valid.step file narrow step)
    exact ⟨result, buf, .head step steps⟩

end Runs

/-- A read of the first bytes of a file. -/
def glance : ReadCall (.pair List.length) :=
  ⟨.first _, 0, [9, 9, 9], by decide, by decide, fun _ => frugalPool, fun _ => frugalPool_answers⟩

end GekkoFwd.Proofs.ReadWhileWriting
