import GekkoFwd.Lib.MapM
import GekkoFwd.Proofs.ChunkPartition

/-! The tasks that all daemons together create for one I/O partition its buffer.
The hash is arbitrary, and so is the build: a forwarder receives every chunk and
keeps every chunk, a plain host receives what hashes to it and filters by the hash. -/

namespace GekkoFwd.Proofs.IoPartition
open ChunkPartition SrvSplit

variable {deployment : Deployment}

/-- A daemon that knows who it is finds its chunks as the client's distributor does. -/
theorem finds_own_chunks (client : Client deployment) {path : Str} {target : Nat} {input : DataIn} (named : input.path = path)
    (self : input.hostId = .ofNat 64 target) (hosts : input.hostSize = .ofNat 64 deployment.hosts)
    (chosen : ∃ c, client.locateData path c = target) (c : Nat) :
    (!deployment.forwarding && locate deployment.strHash input c != input.hostId.toNat) =
      !decide (client.locateData path c = target) := by
  obtain ⟨other, located⟩ := chosen
  have below := client.locateData_lt path other
  have fit := deployment.hosts_fit
  rw [located] at below
  have hostId : input.hostId.toNat = target := by
    rw [self, Words.toNat_ofNat (by omega)]
  have hostSize : input.hostSize.toNat = deployment.hosts := by
    rw [hosts, Words.toNat_ofNat (by omega)]
  rw [hostId]
  cases forwarding : deployment.forwarding with
  | true =>
    have constant : client.locateData path c = target := by
      rw [← located]
      simp [Client.locateData, Client.distributor, forwarding, Distributor.locateData]
    simp [constant]
  | false =>
    have same : locate deployment.strHash input c = client.locateData path c := by
      simp only [locate, Client.locateData, Client.distributor, forwarding, Distributor.locateData, named,
        hostSize, Nat.mod_eq_of_lt fit, Bool.false_eq_true, if_false]
    rw [same]
    by_cases equal : client.locateData path c = target <;> simp [equal]

/-- One I/O from the client's split to the daemons' loops. -/
structure Dispatch (client : Client deployment) (path : Str) (range : IoRange) (targets : List Nat)
    (request : Nat → DataIn) (final : Nat → State) : Prop where
  inputs : ForwardSplit.inputs (client.locateData path) deployment.hosts path (.ofNat 64 range.offset)
    (.ofNat 64 range.size) = some (targets.map fun target => (target, request target))
  distinct : targets.Nodup
  mem_targets : ∀ target, target ∈ targets ↔ ∃ c, (range.split.first ≤ c ∧ c ≤ range.split.last) ∧
    client.locateData path c = target
  addressed : ∀ target, Addresses range (client.locateData path) deployment.hosts path target (request target)
  runs : ∀ target ∈ targets, run deployment.strHash deployment.forwarding (request target) = some (final target)
  tasks : ∀ target ∈ targets, (final target).tasks =
    tasksFrom range.split 0 (range.chunks fun c => decide (client.locateData path c = target))
  left : ∀ target ∈ targets, (final target).chnkSizeLeftHost = 0

theorem exists_dispatch (client : Client deployment) (path : Str) (range : IoRange) :
    ∃ targets request final, Dispatch client path range targets request final := by
  obtain ⟨targets, request, inputs, distinct, owners, addressed⟩ :=
    range.inputs_spec (client.locateData path) deployment.hosts path
  have memTargets : ∀ target, target ∈ targets ↔ ∃ c, (range.split.first ≤ c ∧ c ≤ range.split.last) ∧
      client.locateData path c = target := by
    intro target
    rw [owners]
    constructor
    · intro nonempty
      obtain ⟨c, member⟩ := List.exists_mem_of_ne_nil _ nonempty
      exact ⟨c, by simpa using range.mem_chunks.mp member⟩
    · rintro ⟨c, inside, located⟩
      exact List.ne_nil_of_mem (range.mem_chunks.mpr ⟨inside, by simpa using located⟩)
  have served : ∀ target ∈ targets, ∃ final,
      run deployment.strHash deployment.forwarding (request target) = some final ∧
      final.tasks = tasksFrom range.split 0 (range.chunks fun c => decide (client.locateData path c = target)) ∧
      final.chnkSizeLeftHost = 0 := by
    intro target member
    obtain ⟨c, _, located⟩ := (memTargets target).mp member
    exact run_spec (addressed target).announces fun other _ _ => finds_own_chunks client (addressed target).path
      (addressed target).hostId (addressed target).hostSize ⟨c, located⟩ other
  choose! final runs tasks left using served
  exact ⟨targets, request, final, inputs, distinct, memTargets, addressed, runs, tasks, left⟩

/-- What the targets are sent adds up to the whole I/O. -/
theorem Dispatch.sum_total {client : Client deployment} {path : Str} {range : IoRange} {targets : List Nat}
    {request : Nat → DataIn} {final : Nat → State} (dispatch : Dispatch client path range targets request final) :
    (targets.map fun target => range.split.total (range.chunks fun c => decide (client.locateData path c = target))).sum =
      range.size := by
  have ordered := range.split.first_le_last
  rw [← range.split_length, ← range.split.total_range]
  refine BlockSplit.sum_owners (client.locateData path) range.split.size dispatch.distinct fun c member => ?_
  rw [List.mem_range'_1] at member
  exact (dispatch.mem_targets _).mpr ⟨c, by omega, rfl⟩

section Tasks
variable {range : IoRange} {c localOffset : Nat}

theorem toNat_taskAt (least : range.split.first ≤ c) (most : c ≤ range.split.last) :
    (taskAt range.split localOffset c).chnkId.toNat = c ∧
    (taskAt range.split localOffset c).size.toNat = range.split.size c ∧
    (taskAt range.split localOffset c).off.toNat = range.split.pos c ∧
    (taskAt range.split localOffset c).originOffset.toNat = range.split.origin c := by
  have small := range.last_small
  have fits := range.fits
  have inRange := range.split.origin_add_size_le least most
  have positive := range.split.size_pos least most
  have inChunk := range.split.pos_add_size_le c
  rw [range.split_length] at inRange
  rw [range.split_block, chunksize] at inChunk
  exact ⟨Words.toNat_ofNat (by omega), Words.toNat_ofNat (by omega), Words.toNat_ofNat (by omega),
    Words.toNat_ofNat (by omega)⟩

/-- A task stands for one chunk of the list, packed behind the chunks before it. -/
theorem mem_tasksFrom {split : BlockSplit} {chunks : List Nat} {task : Task} {start : Nat} :
    task ∈ tasksFrom split start chunks ↔
      ∃ before c after, chunks = before ++ c :: after ∧ task = taskAt split (start + split.total before) c := by
  constructor
  · intro member
    induction chunks generalizing start with
    | nil => simp [tasksFrom] at member
    | cons c chunks ih =>
      rcases List.mem_cons.mp member with rfl | later
      · exact ⟨[], c, chunks, rfl, rfl⟩
      · obtain ⟨before, other, after, rfl, rfl⟩ := ih later
        exact ⟨c :: before, other, after, rfl, by simp [Nat.add_assoc]⟩
  · rintro ⟨before, c, after, rfl, rfl⟩
    rw [tasksFrom_append]
    simp [tasksFrom]

theorem length_tasksFrom (split : BlockSplit) (start : Nat) (chunks : List Nat) :
    (tasksFrom split start chunks).length = chunks.length := by
  induction chunks generalizing start with
  | nil => rfl
  | cons c chunks ih => simp [tasksFrom, ih]

theorem sum_size_tasksFrom (chunks : List Nat) (start : Nat)
    (inside : ∀ c ∈ chunks, range.split.first ≤ c ∧ c ≤ range.split.last) :
    ((tasksFrom range.split start chunks).map (·.size.toNat)).sum = range.split.total chunks := by
  induction chunks generalizing start with
  | nil => rfl
  | cons c chunks ih =>
    have here := inside c (by simp)
    rw [tasksFrom, List.map_cons, List.sum_cons, (toNat_taskAt here.1 here.2).2.1,
      ih _ (fun other among => inside other (List.mem_cons_of_mem _ among)), BlockSplit.total_cons]

theorem getElem?_tasksFrom (split : BlockSplit) (start : Nat) (chunks : List Nat) (k : Nat) :
    (tasksFrom split start chunks)[k]? = (chunks[k]?).map fun c => taskAt split (start + split.total (chunks.take k)) c := by
  induction chunks generalizing start k with
  | nil => simp [tasksFrom]
  | cons c chunks ih =>
    cases k with
    | zero => simp [tasksFrom]
    | succ k => simp [tasksFrom, ih, Nat.add_assoc]

theorem take_tasksFrom (split : BlockSplit) (start : Nat) (chunks : List Nat) (k : Nat) :
    (tasksFrom split start chunks).take k = tasksFrom split start (chunks.take k) := by
  induction chunks generalizing start k with
  | nil => simp [tasksFrom]
  | cons c chunks ih =>
    cases k with
    | zero => simp [tasksFrom]
    | succ k => simp [tasksFrom, ih]

/-- The client buffer indices that the task's transfer touches. -/
def covers (task : Task) (i : Nat) : Bool :=
  decide (task.originOffset.toNat ≤ i ∧ i < task.originOffset.toNat + task.size.toNat)

theorem covers_taskAt (least : range.split.first ≤ c) (most : c ≤ range.split.last) (i : Nat) :
    covers (taskAt range.split localOffset c) i = true ↔ (range.offset + i) / chunksize = c ∧ i < range.size := by
  obtain ⟨_, size, _, origin⟩ := @toNat_taskAt _ _ localOffset least most
  rw [covers, decide_eq_true_eq, size, origin]
  exact range.split.mem_piece_origin c i

theorem countP_tasksFrom (chunks : List Nat) (start i : Nat) (bound : i < range.size)
    (inside : ∀ c ∈ chunks, range.split.first ≤ c ∧ c ≤ range.split.last) :
    (tasksFrom range.split start chunks).countP (covers · i) = chunks.count ((range.offset + i) / chunksize) := by
  induction chunks generalizing start with
  | nil => rfl
  | cons c chunks ih =>
    have here := inside c (by simp)
    have covered := @covers_taskAt _ _ start here.1 here.2 i
    rw [tasksFrom, List.countP_cons, List.count_cons, ih _ (fun other among => inside other (List.mem_cons_of_mem _ among))]
    congr 1
    by_cases same : (range.offset + i) / chunksize = c
    · rw [if_pos (covered.mpr ⟨same, bound⟩), if_pos (by simp [same])]
    · rw [if_neg (fun holds => same (covered.mp holds).1), if_neg (by simpa using Ne.symm same)]

end Tasks

/-- All tasks of an I/O, each with the host that runs it. -/
def placedTasks (served : List Served) : List (Nat × Task) :=
  served.flatMap fun reply => reply.final.tasks.map fun task => (reply.host, task)

/-- The daemons' tasks partition an I/O of `size` bytes at `offset`, and every task
sits where the client expects it. -/
structure ExactPartition (client : Client deployment) (path : Str) (offset size : Nat)
    (served : List Served) : Prop where
  reachable : ∀ reply ∈ served, reply.host < deployment.hosts
  counted : ∀ reply ∈ served, reply.final.tasks.length = reply.input.chunkN.toNat
  nothingLeft : ∀ reply ∈ served, reply.final.chnkSizeLeftHost = 0
  -- the daemon's own buffer is filled without gaps, in the order of the tasks
  packed : ∀ reply ∈ served, ∀ k task, reply.final.tasks[k]? = some task → task.buf = task.localOffset ∧
    task.localOffset.toNat = ((reply.final.tasks.take k).map (·.size.toNat)).sum
  filled : ∀ reply ∈ served, (reply.final.tasks.map (·.size.toNat)).sum = reply.input.totalChunkSize.toNat
  inChunk : ∀ placed ∈ placedTasks served, 0 < placed.2.size.toNat ∧
    placed.2.off.toNat + placed.2.size.toNat ≤ chunksize
  once : ∀ i < size, (placedTasks served).countP (fun placed => covers placed.2 i) = 1
  located : ∀ placed ∈ placedTasks served, ∀ i, covers placed.2 i = true → i < size ∧
    placed.2.chnkId.toNat = (offset + i) / chunksize ∧
    placed.2.off.toNat + (i - placed.2.originOffset.toNat) = (offset + i) % chunksize ∧
    placed.1 = client.locateData path ((offset + i) / chunksize)

section Dispatch
variable {client : Client deployment} {path : Str} {range : IoRange} {targets : List Nat}
  {request : Nat → DataIn} {final : Nat → State}

theorem Dispatch.runAll_eq (dispatch : Dispatch client path range targets request final) :
    runAll deployment.strHash deployment.forwarding (targets.map fun target => (target, request target)) =
      some (targets.map fun target => ⟨target, request target, final target⟩) := by
  rw [runAll, List.mapM_map]
  refine MapM.mapM_eq_pure_map fun target member => ?_
  rw [Function.comp_apply, dispatch.runs target member]
  rfl

/-- Which chunks the tasks of a dispatch are for. -/
theorem Dispatch.mem_placedTasks (dispatch : Dispatch client path range targets request final) {placed : Nat × Task}
    (member : placed ∈ placedTasks (targets.map fun target => ⟨target, request target, final target⟩)) :
    ∃ c packed, (range.split.first ≤ c ∧ c ≤ range.split.last) ∧
      placed = (client.locateData path c, taskAt range.split packed c) := by
  simp only [placedTasks, List.mem_flatMap, List.mem_map] at member
  obtain ⟨_, ⟨target, among, rfl⟩, task, created, rfl⟩ := member
  rw [dispatch.tasks target among] at created
  obtain ⟨before, c, after, parts, rfl⟩ := mem_tasksFrom.mp created
  obtain ⟨inside, located⟩ := range.mem_chunks.mp (parts ▸ List.mem_append_right before List.mem_cons_self)
  exact ⟨c, _, inside, by rw [of_decide_eq_true located]⟩

private theorem sum_indicator (targets : List Nat) (owner : Nat) :
    (targets.map fun target => if target = owner then 1 else 0).sum = targets.count owner := by
  induction targets with
  | nil => rfl
  | cons target targets ih =>
    rw [List.map_cons, List.sum_cons, ih, List.count_cons, Nat.add_comm]
    simp only [beq_iff_eq]

theorem Dispatch.covered_once (dispatch : Dispatch client path range targets request final) {i : Nat}
    (bound : i < range.size) :
    (placedTasks (targets.map fun target => ⟨target, request target, final target⟩)).countP
      (fun placed => covers placed.2 i) = 1 := by
  let chunk := (range.offset + i) / chunksize
  have inside : range.split.first ≤ chunk ∧ chunk ≤ range.split.last := by
    constructor
    · exact Nat.div_le_div_right (Nat.le_add_right _ _)
    · refine Nat.div_le_div_right ?_
      simp only [range.split_start, range.split_length]
      omega
  -- only the owner of the chunk has a task for the index, and has one
  have perHost : ∀ target ∈ targets, (final target).tasks.countP (covers · i) =
      if target = client.locateData path chunk then 1 else 0 := by
    intro target member
    rw [dispatch.tasks target member, countP_tasksFrom _ _ _ bound (fun c among => (range.mem_chunks.mp among).1)]
    by_cases owner : target = client.locateData path chunk
    · rw [if_pos owner]
      exact List.count_eq_one_of_mem (owned_nodup _ _ _) (range.mem_chunks.mpr ⟨inside, by simp [owner, chunk]⟩)
    · rw [if_neg owner, List.count_eq_zero]
      intro among
      exact owner (of_decide_eq_true (range.mem_chunks.mp among).2).symm
  have owner : client.locateData path chunk ∈ targets := (dispatch.mem_targets _).mpr ⟨chunk, inside, rfl⟩
  calc (placedTasks (targets.map fun target => ⟨target, request target, final target⟩)).countP
        (fun placed => covers placed.2 i)
      = (targets.map fun target => (final target).tasks.countP (covers · i)).sum := by
        simp only [placedTasks, List.flatMap_map, List.countP_flatMap, List.countP_map, Function.comp_def]
    _ = (targets.map fun target => if target = client.locateData path chunk then 1 else 0).sum := by
        rw [List.map_congr_left perHost]
    _ = targets.count (client.locateData path chunk) := by
        exact sum_indicator targets _
    _ = 1 := List.count_eq_one_of_mem dispatch.distinct owner

theorem Dispatch.exactPartition (dispatch : Dispatch client path range targets request final) :
    ExactPartition client path range.offset range.size
      (targets.map fun target => ⟨target, request target, final target⟩) := by
  have inside : ∀ target, ∀ c ∈ range.chunks fun c => decide (client.locateData path c = target),
      range.split.first ≤ c ∧ c ≤ range.split.last := fun target c among => (range.mem_chunks.mp among).1
  refine ⟨?_, ?_, ?_, ?_, ?_, ?_, fun i bound => dispatch.covered_once bound, ?_⟩
  · simp only [List.forall_mem_map]
    intro target member
    obtain ⟨c, _, located⟩ := (dispatch.mem_targets target).mp member
    exact located ▸ client.locateData_lt path c
  · simp only [List.forall_mem_map]
    intro target member
    have few := length_owned_le (fun c => decide (client.locateData path c = target)) range.split.first (range.split.last + 1)
    have small := range.last_small
    rw [dispatch.tasks target member, length_tasksFrom, (dispatch.addressed target).announces.chunkN,
      Words.toNat_ofNat (by rw [IoRange.chunks]; omega)]
  · simpa only [List.forall_mem_map] using dispatch.left
  · simp only [List.forall_mem_map]
    intro target member k task found
    rw [dispatch.tasks target member, getElem?_tasksFrom, Option.map_eq_some_iff] at found
    obtain ⟨c, at_k, rfl⟩ := found
    refine ⟨rfl, ?_⟩
    rw [dispatch.tasks target member, take_tasksFrom,
      sum_size_tasksFrom _ _ fun other among => inside target other (List.mem_of_mem_take among)]
    simp only [taskAt, Nat.zero_add]
    exact Words.toNat_ofNat (Nat.lt_of_le_of_lt (range.split.total_take_le _ _) (range.total_chunks_lt _))
  · simp only [List.forall_mem_map]
    intro target member
    rw [dispatch.tasks target member, sum_size_tasksFrom _ _ (inside target),
      (dispatch.addressed target).announces.totalChunkSize, Words.toNat_ofNat (range.total_chunks_lt _)]
  · intro placed member
    obtain ⟨c, packed, ⟨least, most⟩, rfl⟩ := dispatch.mem_placedTasks member
    obtain ⟨_, size, off, _⟩ := @toNat_taskAt _ _ packed least most
    have positive := range.split.size_pos least most
    have inChunk := range.split.pos_add_size_le c
    rw [range.split_block] at inChunk
    simp only [size, off]
    omega
  · intro placed member i covered
    obtain ⟨c, packed, ⟨least, most⟩, rfl⟩ := dispatch.mem_placedTasks member
    obtain ⟨chnkId, _, off, origin⟩ := @toNat_taskAt _ _ packed least most
    obtain ⟨chunk, bound⟩ := (covers_taskAt least most i).mp covered
    refine ⟨bound, by rw [chnkId, chunk], ?_, by rw [chunk]⟩
    rw [off, origin]
    exact range.split.pos_add_of_mem_piece chunk

end Dispatch

/-- Client and daemons agree on an exact partition of every read and write. -/
theorem transfer_exactPartition (client : Client deployment) (path : Str) (transfer : Transfer)
    (positive : 0 < transfer.size.toNat) (fits : transfer.offset.toNat + transfer.size.toNat < 2 ^ 63) :
    ∃ requests served, transfer.inputs client path = some requests ∧
      runAll deployment.strHash deployment.forwarding requests = some served ∧
      served.map (fun reply => (reply.host, reply.input)) = requests ∧
      (∀ reply ∈ served, reply.input.bulkSize = transfer.size) ∧
      ExactPartition client path transfer.offset.toNat transfer.size.toNat served := by
  let range : IoRange := ⟨transfer.offset.toNat, transfer.size.toNat, positive, fits⟩
  obtain ⟨targets, request, final, dispatch⟩ := exists_dispatch client path range
  refine ⟨_, _, ?_, dispatch.runAll_eq, by simp, ?_, dispatch.exactPartition⟩
  · have inputs := dispatch.inputs
    simp only [range, BitVec.ofNat_toNat, BitVec.setWidth_eq] at inputs
    exact inputs
  · simp only [List.forall_mem_map]
    intro target _
    rw [(dispatch.addressed target).announces.bulkSize]
    simp [range]

/-- A write over three chunks that starts and ends inside a chunk. -/
theorem transfer_exactPartition_unaligned :
    ∃ requests served, Transfer.inputs (.forwardWrite false 500000 600000 1100000)
        (Client.first (.pair List.length)) "/file".toList = some requests ∧
      runAll List.length false requests = some served ∧
      served.map (fun reply => (reply.host, reply.input)) = requests ∧
      (∀ reply ∈ served, reply.input.bulkSize = 600000) ∧
      ExactPartition (Client.first (.pair List.length)) "/file".toList 500000 600000 served :=
  transfer_exactPartition (Client.first (.pair List.length)) "/file".toList (.forwardWrite false 500000 600000 1100000)
    (by decide) (by decide)

end GekkoFwd.Proofs.IoPartition
