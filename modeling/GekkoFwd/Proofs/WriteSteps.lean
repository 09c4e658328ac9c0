import GekkoFwd.ConcurrentWrite
import GekkoFwd.Proofs.ReadAfterWrite

/-! The steps of one write. A step of a request either leaves the stores alone or puts
into one chunk what arrives of its slice, and slices of disjoint ranges may be put in any
order. -/

namespace GekkoFwd.Proofs.WriteSteps
open ChunkPartition IoPartition StorageSpec DataPath WriteOutcome ReadAfterWrite SrvSplit ConcurrentWrite

variable {deployment : Deployment} {path : Str}

/-- The chunks of all backends. -/
def contents (cluster : Cluster) (backend : Nat) (dir : Str) (c : Nat) : Option (List Byte) :=
  stored (cluster.storage backend) dir c

/-- The effect of one task of a call. There is none when the name of the chunk directory is
too long. -/
def put (path : Str) (call : Write deployment) (c : Nat) (chunks : Nat → Str → Nat → Option (List Byte)) :
    Nat → Str → Nat → Option (List Byte) :=
  fun backend dir target =>
    if (dir = dirName path ∧ dir.length ≤ LocalFs.nameMax) ∧ target = c ∧ backend = deployment.chunkBackend path c
    then some (written (chunks backend dir target) (call.arrived path c) (call.range.split.pos c))
    else chunks backend dir target

theorem written_comm {old : Option (List Byte)} {first second : List Byte} {offset offset' : Nat}
    (disjoint : offset + first.length ≤ offset' ∨ offset' + second.length ≤ offset) :
    written (some (written old first offset)) second offset' = written (some (written old second offset')) first offset := by
  simp only [written, Option.getD_some]
  exact ByteFile.pwrite_comm disjoint

/-- No byte is in both ranges. -/
def RangesDisjoint (call other : Write deployment) : Prop :=
  call.offset + call.data.length ≤ other.offset ∨ other.offset + other.data.length ≤ call.offset

theorem put_of_ne {call : Write deployment} {c target : Nat} (different : target ≠ c)
    (chunks : Nat → Str → Nat → Option (List Byte)) (backend : Nat) (dir : Str) :
    put path call c chunks backend dir target = chunks backend dir target :=
  if_neg fun here => different here.2.1

theorem put_congr {call : Write deployment} {c target backend : Nat} {dir : Str}
    {chunks others : Nat → Str → Nat → Option (List Byte)} (same : chunks backend dir target = others backend dir target) :
    put path call c chunks backend dir target = put path call c others backend dir target := by
  simp only [put, same]

theorem put_comm {call other : Write deployment} {c d : Nat} (apart : c ≠ d ∨ RangesDisjoint call other)
    (member : c ∈ call.range.split.blocks) (member' : d ∈ other.range.split.blocks)
    (chunks : Nat → Str → Nat → Option (List Byte)) :
    put path other d (put path call c chunks) = put path call c (put path other d chunks) := by
  funext backend dir target
  by_cases same : c = d
  · subst same
    have inside := call.range.split.mem_blocks.mp member
    have inside' := other.range.split.mem_blocks.mp member'
    have disjoint := @BlockSplit.pieces_disjoint call.range.split other.range.split rfl
      (apart.resolve_left fun different => different rfl) c (call.range.split.size_pos inside.1 inside.2)
      (other.range.split.size_pos inside'.1 inside'.2)
    have length := @Write.length_arrived _ path call _ member
    have length' := @Write.length_arrived _ path other _ member'
    have most : call.takes path c ≤ _ := call.takes_le c
    have most' : other.takes path c ≤ _ := other.takes_le c
    have arrive : call.range.split.pos c + (call.arrived path c).length ≤ other.range.split.pos c ∨
        other.range.split.pos c + (other.arrived path c).length ≤ call.range.split.pos c := by omega
    simp only [put]
    split
    next => rw [written_comm arrive]
    next => rfl
  · by_cases here : target = c
    · have away : target ≠ d := fun there => same (here.symm.trans there)
      rw [put_of_ne away, put_congr (put_of_ne away chunks backend dir)]
    · rw [put_of_ne here, put_congr (put_of_ne here chunks backend dir)]

section Bytes
variable {call : Write deployment} {c : Nat} {chunks : Nat → Str → Nat → Option (List Byte)}

/-- The byte that the chunks have at an offset of a file. -/
def byteOf (deployment : Deployment) (path : Str) (chunks : Nat → Str → Nat → Option (List Byte)) (x : Nat) : Option Byte :=
  (chunks (deployment.chunkBackend path (x / chunksize)) (dirName path) (x / chunksize)).bind (·[x % chunksize]?)

theorem byteAt_eq (cluster : Cluster) (x : Nat) : byteAt deployment cluster path x = byteOf deployment path (contents cluster) x := rfl

def Covers (call : Write deployment) (x : Nat) : Prop := call.offset ≤ x ∧ x < call.offset + call.data.length

/-- A byte that nobody writes stays, or is filled with zero where there was nothing. -/
def Undisturbed (before after : Option Byte) : Prop := after = before ∨ before = none ∧ after = some 0

theorem Undisturbed.trans {before between after : Option Byte} (first : Undisturbed before between)
    (second : Undisturbed between after) : Undisturbed before after := by
  rcases first with rfl | ⟨hole, rfl⟩
  · exact second
  · rcases second with rfl | ⟨impossible, _⟩
    · exact .inr ⟨hole, rfl⟩
    · cases impossible

/-- A chunk after something has been stored in it. -/
theorem getElem?_written_undisturbed {old : Option (List Byte)} {bytes : List Byte} {pos index : Nat}
    (outside : ¬(pos ≤ index ∧ index < pos + bytes.length)) :
    Undisturbed (old.bind (·[index]?)) (written old bytes pos)[index]? := by
  have content : old.bind (·[index]?) = (old.getD [])[index]? := by cases old <;> rfl
  rw [content, written]
  by_cases nothing : bytes = []
  · rw [nothing, ByteFile.pwrite_nil]
    exact .inl rfl
  · rw [ByteFile.getElem?_pwrite nothing]
    by_cases before : index < pos
    · rw [if_pos before]
      split
      next => exact .inl rfl
      next behind => exact .inr ⟨List.getElem?_eq_none (Nat.le_of_not_lt behind), rfl⟩
    · rw [if_neg before, if_neg (by omega)]
      exact .inl rfl

theorem byteOf_put_of_ne {x : Nat} (away : x / chunksize ≠ c ∨ LocalFs.nameMax < (dirName path).length) :
    byteOf deployment path (put path call c chunks) x = byteOf deployment path chunks x := by
  rw [byteOf, put, if_neg, byteOf]
  rintro ⟨⟨_, short⟩, here, _⟩
  rcases away with other | long
  · exact other here
  · exact absurd short (Nat.not_le.mpr long)

theorem byteOf_put_of_short (short : (dirName path).length ≤ LocalFs.nameMax) (x : Nat) :
    byteOf deployment path (put path call (x / chunksize) chunks) x =
      (written (chunks (deployment.chunkBackend path (x / chunksize)) (dirName path) (x / chunksize))
        (call.arrived path (x / chunksize)) (call.range.split.pos (x / chunksize)))[x % chunksize]? := by
  rw [byteOf, put, if_pos ⟨⟨rfl, short⟩, rfl, rfl⟩, Option.bind_some]

/-- A task gives bytes that its call covers their new values, and leaves the others. -/
theorem byteOf_put (block : c ∈ call.range.split.blocks) (chunks : Nat → Str → Nat → Option (List Byte)) (x : Nat) :
    Undisturbed (byteOf deployment path chunks x) (byteOf deployment path (put path call c chunks) x) ∨
      (Covers call x ∧ byteOf deployment path (put path call c chunks) x = call.data[x - call.offset]?) := by
  by_cases away : x / chunksize ≠ c ∨ LocalFs.nameMax < (dirName path).length
  · exact .inl (.inl (byteOf_put_of_ne away))
  obtain ⟨rfl, short⟩ : x / chunksize = c ∧ (dirName path).length ≤ LocalFs.nameMax := by
    rw [not_or, not_not, Nat.not_lt] at away
    exact away
  rw [byteOf_put_of_short short]
  by_cases reached : call.range.split.pos (x / chunksize) ≤ x % chunksize ∧
      x % chunksize < call.range.split.pos (x / chunksize) + (call.arrived path (x / chunksize)).length
  · have small : x % chunksize < chunksize := Nat.mod_lt _ (by decide)
    have most : (call.arrived path (x / chunksize)).length ≤ call.range.split.size (x / chunksize) := by
      rw [call.length_arrived block]
      exact call.takes_le _
    have piece := call.range.split.mem_piece_pos (x / chunksize) small
    have places := call.range.split.start_add_origin (x / chunksize)
    simp only [IoRange.split_start, IoRange.split_block, IoRange.split_length] at piece places
    rw [Nat.div_add_mod' x chunksize] at piece
    have decomposed := Nat.div_add_mod' x chunksize
    have offset : call.range.offset = call.offset := rfl
    refine .inr ⟨piece.mp ⟨reached.1, by omega⟩, ?_⟩
    rw [written, ByteFile.getElem?_pwrite_of_le reached.1, if_pos reached.2, Write.arrived,
      getElem?_landed (by rw [← Write.arrived]; omega), getElem?_slice (by omega)]
    congr 1
    omega
  · exact .inl (getElem?_written_undisturbed reached)

theorem byteOf_put_whole (short : (dirName path).length ≤ LocalFs.nameMax) {x : Nat} (covers : Covers call x)
    (whole : call.arrived path (x / chunksize) = slice call.range call.data (x / chunksize)) :
    byteOf deployment path (put path call (x / chunksize) chunks) x = call.data[x - call.offset]? := by
  have chunk := @getElem?_written call.range call.data rfl
    (chunks (deployment.chunkBackend path (x / chunksize)) (dirName path) (x / chunksize)) _ _
    (inside_of_mem covers.1 covers.2) (Nat.mod_lt x (by decide : 0 < chunksize))
  rw [Nat.div_add_mod' x chunksize] at chunk
  rw [byteOf_put_of_short short, whole]
  exact (if_pos covers).mp chunk

end Bytes

section Jobs

/-- The call as the client makes it. -/
def pwriteCall (call : Write deployment) : Call deployment :=
  ⟨call.client, call.appendFlag, call.data, .ofNat 64 call.offset, call.pools⟩

/-- What is known of the request to a target when the chunks in `done` have got what arrives
of their slices. -/
def JobOk (path : Str) (call : Write deployment) (request : Nat → DataIn) (done : Nat → Prop) (target : Nat) : Job → Prop
  | .posted host input => host = target ∧ input = request target ∧ ∀ c ∈ mine path call target, ¬done c
  | .running host input tasks eventuals => host = target ∧ input = request target ∧
      tasks = tasksFrom call.range.split 0 (mine path call target) ∧
      (∀ eventual ∈ eventuals, eventual.2 = call.value path eventual.1.chnkId.toNat) ∧
      ∀ task ∈ tasks, task ∈ eventuals.map Prod.fst ↔ done task.chnkId.toNat
  | .answered reply => reply = writeAnswer path call target ∧ ∀ c ∈ mine path call target, done c

variable {call : Write deployment} {request : Nat → DataIn} {done others : Nat → Prop} {target : Nat} {job : Job}

theorem map_chnkId (path : Str) (call : Write deployment) (target : Nat) :
    (tasksFrom call.range.split 0 (mine path call target)).map (·.chnkId.toNat) = mine path call target :=
  toNat_chnkId_tasksFrom (chunks_inside call.range fun c => decide (call.client.locateData path c = target)) 0

theorem chnkId_mem_mine {task : Task} (member : task ∈ tasksFrom call.range.split 0 (mine path call target)) :
    task.chnkId.toNat ∈ mine path call target := by
  rw [← map_chnkId]
  exact List.mem_map.mpr ⟨task, member, rfl⟩

theorem chnkId_injective {task other : Task} (member : task ∈ tasksFrom call.range.split 0 (mine path call target))
    (member' : other ∈ tasksFrom call.range.split 0 (mine path call target)) (same : task.chnkId.toNat = other.chnkId.toNat) :
    task = other := by
  have distinct : ((tasksFrom call.range.split 0 (mine path call target)).map (·.chnkId.toNat)).Nodup := by
    rw [map_chnkId]
    exact owned_nodup _ _ _
  exact List.inj_on_of_nodup_map distinct member member' same

private theorem lookup_of_mem_keys {α β : Type} [BEq α] [LawfulBEq α] {key : α} {items : List (α × β)}
    (member : key ∈ items.map Prod.fst) : ∃ value, items.lookup key = some value ∧ (key, value) ∈ items := by
  induction items with
  | nil => cases member
  | cons item items ih =>
    obtain ⟨first, value⟩ := item
    by_cases same : key = first
    · exact ⟨value, by simp [same], by simp [same]⟩
    · obtain ⟨found, read, among⟩ := ih (List.mem_of_ne_of_mem same member)
      exact ⟨found, by rw [List.lookup_cons, beq_eq_false_iff_ne.mpr same, read], List.mem_cons_of_mem _ among⟩

/-- The answer of a handler whose tasks have all returned. -/
theorem awaitWrites_eventuals {eventuals : List (Task × Int)}
    (values : ∀ eventual ∈ eventuals, eventual.2 = call.value path eventual.1.chnkId.toNat)
    (set : ∀ task ∈ tasksFrom call.range.split 0 (mine path call target), task ∈ eventuals.map Prod.fst) :
    Daemon.awaitWrites ((tasksFrom call.range.split 0 (mine path call target)).map fun task => (eventuals.lookup task).getD 0) =
      writeAnswer path call target := by
  have own : (mine path call target).map (call.value path) =
      (tasksFrom call.range.split 0 (mine path call target)).map fun task => call.value path task.chnkId.toNat := by
    conv_lhs => rw [← map_chnkId, List.map_map]
    rfl
  rw [writeAnswer, own]
  refine congrArg _ (List.map_congr_left fun task created => ?_)
  obtain ⟨value, read, among⟩ := lookup_of_mem_keys (set task created)
  rw [read, Option.getD_some]
  exact values _ among

/-- A task returns and puts what arrives of the slice of its chunk. -/
theorem put_task {cluster : Cluster} {task : Task} (file : IsFilePath path) (narrow : call.range.split.last < 2 ^ 32)
    (addressed : Addresses call.range (call.client.locateData path) deployment.hosts path target (request target))
    (healthy : Healthy cluster) (created : task ∈ tasksFrom call.range.split 0 (mine path call target)) :
    ∃ store, Daemon.writeFileAbt deployment.ndebug (request target).path
        (Daemon.pullAll (request target) call.data (tasksFrom call.range.split 0 (mine path call target)))
        ((call.pools target).pwrite task.chnkId) task (cluster.storage (deployment.backend target)) =
          (some (call.value path task.chnkId.toNat), store) ∧
      Healthy (cluster.setStore (deployment.backend target) store) ∧
      contents (cluster.setStore (deployment.backend target) store) = put path call task.chnkId.toNat (contents cluster) := by
  have owner := (mem_mine.mp (chnkId_mem_mine created)).2
  obtain ⟨packed, c, rfl, inside, found⟩ := (pulled_of_mem rfl addressed.announces created).exists_chunk
  have chnkId := (@toNat_taskAt _ _ packed inside.1 inside.2).1
  rw [chnkId] at owner ⊢
  have outcome : (call.pools target).pwrite (taskAt call.range.split packed c).chnkId = call.outcome path c := by
    rw [Write.outcome, owner]
    rfl
  rw [addressed.path, outcome, Write.value]
  by_cases short : (dirName path).length ≤ LocalFs.nameMax
  · obtain ⟨after, stores, kept, changed⟩ := writeFileAbt_landed (healthy.stores (deployment.backend target)) ⟨file, short⟩
      deployment.ndebug (call.outcome path c) inside found rfl
    rw [if_pos short]
    refine ⟨after, stores, healthy.setStore kept, ?_⟩
    have place : deployment.chunkBackend path c = deployment.backend target := by
      rw [← call.client.backend_locateData, owner]
    funext backend dir other
    rw [contents, Cluster.storage_setStore, put, place]
    by_cases here : backend = deployment.backend target
    · subst here
      rw [Function.update_self, changed, Nat.mod_eq_of_lt (by omega)]
      by_cases same : dir = dirName path
      · simp [same, short, contents, Write.arrived]
      · simp [same, contents]
    · rw [Function.update_of_ne here, if_neg fun there => here there.2.2, contents]
  · have nothing : ∀ backend dir target, ¬((dir = dirName path ∧ dir.length ≤ LocalFs.nameMax) ∧ target = c ∧
        backend = deployment.chunkBackend path c) := by
      rintro backend dir target ⟨⟨rfl, fits⟩, _⟩
      exact short fits
    have same : cluster.setStore (deployment.backend target) (cluster.storage (deployment.backend target)) = cluster := by
      rw [Cluster.setStore, Function.update_eq_self]
    rw [if_neg short]
    refine ⟨_, writeFileAbt_long (healthy.stores _) file (Nat.not_le.mp short) deployment.ndebug _ inside, by rwa [same], ?_⟩
    funext backend dir other
    rw [same, put, if_neg (nothing backend dir other)]

theorem JobOk.congr (valid : JobOk path call request done target job)
    (same : ∀ c ∈ mine path call target, done c ↔ others c) : JobOk path call request others target job := by
  cases job with
  | posted host input =>
    obtain ⟨here, sent, fresh⟩ := valid
    exact ⟨here, sent, fun c member => mt (same c member).mpr (fresh c member)⟩
  | running host input tasks eventuals =>
    obtain ⟨here, sent, rfl, sizes, set⟩ := valid
    exact ⟨here, sent, rfl, sizes, fun task member => (set task member).trans (same _ (chnkId_mem_mine member))⟩
  | answered reply =>
    obtain ⟨total, all⟩ := valid
    exact ⟨total, fun c member => (same c member).mp (all c member)⟩

/-- A step of a request keeps the stores, or puts the slice of a chunk that had not got
it yet. -/
theorem JobOk.step {cluster after : Cluster} {stepped : Job} {targets : List Nat} {final : Nat → SrvSplit.State}
    (file : IsFilePath path) (narrow : call.range.split.last < 2 ^ 32)
    (dispatch : Dispatch call.client path call.range targets request final) (member : target ∈ targets) (healthy : Healthy cluster)
    (valid : JobOk path call request done target job) (step : JobStep (pwriteCall call) cluster job after stepped) :
    (after = cluster ∧ JobOk path call request done target stepped) ∨
      ∃ c ∈ mine path call target, ¬done c ∧ Healthy after ∧
        contents after = put path call c (contents cluster) ∧
        JobOk path call request (fun other => done other ∨ other = c) target stepped := by
  cases step with
  | accept ran =>
    obtain ⟨rfl, rfl, fresh⟩ := valid
    cases ran.symm.trans (dispatch.runs _ member)
    refine .inl ⟨rfl, rfl, rfl, dispatch.tasks _ member, nofun, fun task created => ?_⟩
    rw [dispatch.tasks _ member] at created
    simpa using fresh _ (chnkId_mem_mine created)
  | task created unset ran =>
    obtain ⟨rfl, rfl, rfl, sizes, set⟩ := valid
    obtain ⟨store, stores, kept, changed⟩ := put_task file narrow (dispatch.addressed _) healthy created
    cases ran.symm.trans stores
    refine .inr ⟨_, chnkId_mem_mine created, mt (set _ created).mpr unset, kept, changed, rfl, rfl, rfl, ?_, ?_⟩
    · intro eventual among
      rcases List.mem_append.mp among with earlier | last
      · exact sizes eventual earlier
      · rw [List.mem_singleton.mp last]
    · intro other member
      rw [List.map_append, List.mem_append, set other member, List.map_singleton, List.mem_singleton]
      exact or_congr_right ⟨fun same => by rw [same], chnkId_injective member created⟩
  | answer set =>
    obtain ⟨rfl, rfl, rfl, sizes, done⟩ := valid
    refine .inl ⟨rfl, awaitWrites_eventuals sizes set, fun c member => ?_⟩
    rw [← map_chnkId] at member
    obtain ⟨task, created, rfl⟩ := List.mem_map.mp member
    exact (done task created).mp (set task created)

end Jobs

end GekkoFwd.Proofs.WriteSteps
