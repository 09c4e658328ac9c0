import GekkoFwd.Proofs.IoPartition

/-! Where the bytes of a write go. Chunk numbers have 64 bits in the requests and 32
bits in the distributor and in the calls of the chunk store. -/

namespace GekkoFwd.Proofs.ChunkNumbers
open ChunkPartition IoPartition SrvSplit

variable {deployment : Deployment}

/-- The host, the chunk file and the position in it that `write_file_abt` and
`read_file_abt` use for a byte of a task. -/
def reached (placed : Nat × Task) (index : Nat) : Nat × Nat × Nat :=
  (placed.1, placed.2.chunkId, placed.2.off.toNat + (index - placed.2.originOffset.toNat))

/-- The place of a file offset. -/
def place (client : Client deployment) (path : Str) (x : Nat) : Nat × Nat × Nat :=
  (client.locateData path (x / chunksize), x / chunksize % 2 ^ 32, x % chunksize)

/-- The tasks of all daemons for a write whose size the metadata host has recorded. -/
def writeTasks (client : Client deployment) (path : Str) (offset size : Word) : Option (List (Nat × Task)) := do
  let requests ← Transfer.inputs (.forwardWrite false offset size (size + offset)) client path
  let served ← runAll deployment.strHash deployment.forwarding requests
  return placedTasks served

/-- Every byte of a write has one task, which takes it to its place. -/
theorem reached_of_write (client : Client deployment) (path : Str) {offset size : Nat} (positive : 0 < size)
    (fits : offset + size < 2 ^ 63) :
    ∃ tasks, writeTasks client path (.ofNat 64 offset) (.ofNat 64 size) = some tasks ∧
      ∀ i < size, (∃ placed ∈ tasks, covers placed.2 i) ∧
        ∀ placed ∈ tasks, covers placed.2 i → reached placed i = place client path (offset + i) := by
  obtain ⟨targets, request, final, dispatch⟩ := exists_dispatch client path ⟨offset, size, positive, fits⟩
  have exact := dispatch.exactPartition
  refine ⟨placedTasks (targets.map fun target => ⟨target, request target, final target⟩), ?_, fun i inside => ⟨?_, ?_⟩⟩
  · have inputs : Transfer.inputs (.forwardWrite false (.ofNat 64 offset) (.ofNat 64 size) (.ofNat 64 size + .ofNat 64 offset))
        client path = some (targets.map fun target => (target, request target)) := by
      rw [Transfer.inputs, Transfer.offset_forwardWrite]
      exact dispatch.inputs
    simp only [writeTasks, inputs, Option.bind_eq_bind, Option.bind_some, dispatch.runAll_eq, Option.pure_def]
  · have once := exact.once i inside
    obtain ⟨placed, member, covered⟩ := List.countP_pos_iff.mp (by rw [once]; exact Nat.one_pos)
    exact ⟨placed, member, covered⟩
  · intro placed member covered
    obtain ⟨_, chunk, position, host⟩ := exact.located placed member i covered
    rw [reached, Task.chunkId, place, chunk, position, host]

section Single
variable {x : Nat}

theorem toNat_chunk (small : x < 2 ^ 63) : (ChunkCalc.chnkIdForOffset (.ofNat 64 x) chunkWord).toNat = x / chunksize := by
  have value : (BitVec.ofNat 64 x).toNat = x := Words.toNat_ofNat (by omega)
  rw [chunkWord, ChunkCalc.toNat_chnkIdForOffset (by omega), value]

theorem not_succ_le {chunk : Word} (small : chunk.toNat < 2 ^ 44) : ¬chunk + 1 ≤ chunk := by
  rw [BitVec.le_def, BitVec.toNat_add, show (1 : Word).toNat = 1 from rfl]
  omega

theorem collect_single (locate : Nat → Nat) {chunk : Word} (small : chunk.toNat < 2 ^ 44) :
    ForwardSplit.collect locate chunk chunk = some (ForwardSplit.body locate chunk chunk (ForwardSplit.initial chunk)) := by
  refine (WhileLoop.run_step ?_).trans (WhileLoop.run_stop ?_)
  · exact decide_eq_true (BitVec.le_refl _)
  · exact decide_eq_false (not_succ_le small)

/-- A daemon that is sent a single chunk of its own makes one task of it. -/
theorem run_single {strHash : Str → Nat} {forwarding : Bool} {input : DataIn} (small : input.chunkStart.toNat < 2 ^ 44)
    (single : input.chunkEnd = input.chunkStart) (one : input.chunkN = 1)
    (mine : (!forwarding && locate strHash input input.chunkStart.toNat != input.hostId.toNat) = false) :
    ∃ final task, run strHash forwarding input = some final ∧ final.tasks = [task] ∧ task.chnkId = input.chunkStart ∧
      task.off = input.offset := by
  have go : SrvSplit.guard input (initial input) = true := by
    rw [SrvSplit.guard, initial, one]
    exact Bool.or_true _
  have taken : body strHash forwarding input (initial input) = take input (initial input) := by
    rw [body, show (initial input).chnkIdFile = input.chunkStart from rfl, mine, if_neg Bool.false_ne_true]
  have next : (take input (initial input)).chnkIdFile = input.chunkStart + 1 ∧ (take input (initial input)).chnkIdCurr = 1 ∧
      ∃ task, (take input (initial input)).tasks = [task] ∧ task.chnkId = input.chunkStart ∧ task.off = input.offset := by
    by_cases padded : (0 : Word).slt input.offset = true
    · rw [take, if_pos ⟨rfl, padded⟩]
      exact ⟨rfl, rfl, _, rfl, rfl, if_pos rfl⟩
    · rw [take, if_neg fun both => padded both.2]
      exact ⟨rfl, rfl, _, rfl, rfl, if_pos rfl⟩
  obtain ⟨file, curr, task, tasks, chnkId, off⟩ := next
  have stop : SrvSplit.guard input (take input (initial input)) = false := by
    rw [SrvSplit.guard, file, curr, single, one]
    simp only [Bool.or_eq_false_iff, decide_eq_false_iff_not]
    exact ⟨fun less => not_succ_le small (BitVec.le_of_lt less), BitVec.lt_irrefl _⟩
  refine ⟨take input (initial input), task, ?_, tasks, chnkId, off⟩
  rw [run, WhileLoop.run_step go, taken, WhileLoop.run_stop stop]

/-- A single byte at any offset. -/
theorem reached_of_byte (client : Client deployment) (path : Str) (small : x < 2 ^ 63) :
    ∃ placed, writeTasks client path (.ofNat 64 x) 1 = some [placed] ∧
      (placed.1, placed.2.chunkId, placed.2.off.toNat) = place client path x := by
  let chunk := ChunkCalc.chnkIdForOffset (.ofNat 64 x) chunkWord
  let host := client.locateData path chunk.toNat
  have number : chunk.toNat = x / chunksize := toNat_chunk small
  have narrow : chunk.toNat < 2 ^ 44 := by
    rw [number, chunksize]
    omega
  have last : BitVec.ofNat 64 x + 1 - 1 = BitVec.ofNat 64 x := BitVec.add_sub_cancel _ _
  let state := ForwardSplit.body (client.locateData path) chunk chunk (ForwardSplit.initial chunk)
  let input := ForwardSplit.input deployment.hosts path (.ofNat 64 x) 1 chunk chunk state host
  have inputs : Transfer.inputs (.forwardWrite false (.ofNat 64 x) 1 (1 + .ofNat 64 x)) client path = some [(host, input)] := by
    rw [Transfer.inputs, Transfer.offset_forwardWrite, Transfer.size, ForwardSplit.inputs, last]
    exact congrArg (Option.map _) (collect_single (client.locateData path) narrow)
  have one : input.chunkN = 1 := by
    show BitVec.ofNat 64 (Function.update (fun _ => []) host ([] ++ [chunk]) host).length = 1
    rw [Function.update_self]
    rfl
  have mine : (!deployment.forwarding && locate deployment.strHash input input.chunkStart.toNat != input.hostId.toNat) = false := by
    rw [finds_own_chunks client rfl rfl rfl ⟨chunk.toNat, rfl⟩]
    exact congrArg not (decide_eq_true rfl)
  obtain ⟨final, task, ran, tasks, chnkId, off⟩ := run_single narrow rfl one mine
  refine ⟨(host, task), ?_, ?_⟩
  · simp only [writeTasks, inputs, Option.bind_eq_bind, Option.bind_some, runAll, List.mapM_cons, List.mapM_nil, ran,
      Option.map_some, Option.pure_def, placedTasks, List.flatMap_cons, List.flatMap_nil, tasks, List.map_cons, List.map_nil,
      List.append_nil]
  · have lpad : input.offset.toNat = x % chunksize := by
      show (ChunkCalc.chnkLpad (.ofNat 64 x) chunkWord).toNat = _
      rw [chunkWord, ChunkCalc.toNat_chnkLpad, Words.toNat_ofNat (by omega)]
    rw [Task.chunkId, chnkId, off, place, lpad, show input.chunkStart.toNat = x / chunksize from number, ← number]

end Single

theorem place_eq_iff (client : Client deployment) (path : Str) (x y : Nat) :
    place client path x = place client path y ↔ x % (2 ^ 32 * chunksize) = y % (2 ^ 32 * chunksize) := by
  have host : x / chunksize % 2 ^ 32 = y / chunksize % 2 ^ 32 →
      client.locateData path (x / chunksize) = client.locateData path (y / chunksize) := by
    intro same
    rw [Client.locateData, Client.locateData, ← Distributor.locateData_mod, same, Distributor.locateData_mod]
  rw [place, place, Prod.mk.injEq, Prod.mk.injEq]
  rw [chunksize] at host ⊢
  constructor
  · omega
  · intro same
    have chunks : x / 524288 % 2 ^ 32 = y / 524288 % 2 ^ 32 := by omega
    exact ⟨host chunks, chunks, by omega⟩

/-- The chunk number that a write of a byte hands to the chunk store is that of its
offset exactly below 2^51, and two bytes go to different places exactly when their
offsets differ modulo 2^51. -/
theorem chunk_numbers_iff (client : Client deployment) (path : Str) :
    (∀ offset size : Nat, 0 < size → offset + size < 2 ^ 63 →
      ∃ tasks, writeTasks client path (.ofNat 64 offset) (.ofNat 64 size) = some tasks ∧
        ∀ i < size, (∃ placed ∈ tasks, covers placed.2 i) ∧
          ∀ placed ∈ tasks, covers placed.2 i → reached placed i = place client path (offset + i)) ∧
    (∀ x < 2 ^ 63, ∃ placed, writeTasks client path (.ofNat 64 x) 1 = some [placed] ∧
      (placed.1, placed.2.chunkId, placed.2.off.toNat) = place client path x ∧
      (placed.2.chunkId = x / chunksize ↔ x < 2 ^ 51)) ∧
    ∀ x < 2 ^ 63, ∀ y < 2 ^ 63, x ≠ y → (place client path x ≠ place client path y ↔ x % 2 ^ 51 ≠ y % 2 ^ 51) := by
  refine ⟨fun offset size positive fits => reached_of_write client path positive fits, fun x small => ?_, fun x _ y _ _ => ?_⟩
  · obtain ⟨placed, tasks, same⟩ := reached_of_byte client path small
    refine ⟨placed, tasks, same, ?_⟩
    have number : placed.2.chunkId = x / chunksize % 2 ^ 32 := congrArg (·.2.1) same
    rw [number, chunksize]
    omega
  · exact (place_eq_iff client path x y).not

theorem chunk_numbers_iff_first_chunks : (0 : Nat) < 2 ^ 63 ∧ 524288 < 2 ^ 63 ∧ (0 : Nat) ≠ 524288 ∧
    place (Client.first (.pair List.length)) "/file".toList 0 ≠ place (Client.first (.pair List.length)) "/file".toList 524288 := by
  refine ⟨by decide, by decide, by decide, ?_⟩
  exact ((chunk_numbers_iff (.first (.pair List.length)) "/file".toList).2.2 0 (by decide) 524288 (by decide) (by decide)).mpr (by decide)

/-- The byte at 2^51 goes to the place of the first byte of the file. -/
theorem far_byte_overwrites_first : (0 : Nat) ≠ 2 ^ 51 ∧ 2 ^ 51 < 2 ^ 63 ∧
    place (Client.first (.pair List.length)) "/file".toList 0 = place (Client.first (.pair List.length)) "/file".toList (2 ^ 51) ∧
    ∃ first far, writeTasks (Client.first (.pair List.length)) "/file".toList (.ofNat 64 0) 1 = some [first] ∧
      writeTasks (Client.first (.pair List.length)) "/file".toList (.ofNat 64 (2 ^ 51)) 1 = some [far] ∧
      (first.1, first.2.chunkId, first.2.off.toNat) = (far.1, far.2.chunkId, far.2.off.toNat) := by
  have same := (place_eq_iff (Client.first (.pair List.length)) "/file".toList 0 (2 ^ 51)).mpr (by decide)
  obtain ⟨first, tasks, here⟩ := reached_of_byte (Client.first (.pair List.length)) "/file".toList (show 0 < 2 ^ 63 by decide)
  obtain ⟨far, others, there⟩ := reached_of_byte (Client.first (.pair List.length)) "/file".toList (show 2 ^ 51 < 2 ^ 63 by decide)
  exact ⟨by decide, by decide, same, first, far, tasks, others, here.trans (same.trans there.symm)⟩

end GekkoFwd.Proofs.ChunkNumbers
