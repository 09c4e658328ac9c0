import GekkoFwd.ChunkSplit
import GekkoFwd.Lib.BlockSplit
import GekkoFwd.Lib.Words

/-! Client and daemons cut an I/O in the same way. The client only counts chunks
and subtracts paddings; a daemon rescans the interval and derives each size from
what is left. Both agree with the cut of the range at chunk boundaries. -/

namespace GekkoFwd.Proofs.ChunkPartition

/-- The chunks from `first` up to but excluding `next` that satisfy `mine`. -/
def owned (mine : Nat → Bool) (first next : Nat) : List Nat :=
  (List.range' first (next - first)).filter mine

theorem owned_succ {mine : Nat → Bool} {first next : Nat} (least : first ≤ next) :
    owned mine first (next + 1) = owned mine first next ++ if mine next then [next] else [] := by
  have longer : next + 1 - first = next - first + 1 := by omega
  rw [owned, owned, longer, List.range'_1_concat, List.filter_append]
  have last : first + (next - first) = next := by omega
  rw [last]
  by_cases holds : mine next <;> simp [holds]

theorem mem_owned {mine : Nat → Bool} {first next c : Nat} :
    c ∈ owned mine first next ↔ (first ≤ c ∧ c < next) ∧ mine c = true := by
  simp only [owned, List.mem_filter, List.mem_range'_1]
  constructor
  · rintro ⟨inside, holds⟩
    exact ⟨by omega, holds⟩
  · rintro ⟨inside, holds⟩
    exact ⟨by omega, holds⟩

theorem owned_nodup (mine : Nat → Bool) (first next : Nat) : (owned mine first next).Nodup :=
  (List.nodup_range').filter _

theorem owned_cons {mine : Nat → Bool} {first stop : Nat} (less : first < stop) :
    owned mine first stop = (if mine first then [first] else []) ++ owned mine (first + 1) stop := by
  have longer : stop - first = stop - (first + 1) + 1 := by omega
  rw [owned, owned, longer, List.range'_succ, List.filter_cons]
  by_cases holds : mine first <;> simp [holds]

theorem owned_append {mine : Nat → Bool} {first next stop : Nat} (least : first ≤ next) (most : next ≤ stop) :
    owned mine first next ++ owned mine next stop = owned mine first stop := by
  have joined := @List.range'_append_1 first (next - first) (stop - next)
  rw [show first + (next - first) = next by omega, show next - first + (stop - next) = stop - first by omega] at joined
  rw [owned, owned, owned, ← joined, List.filter_append]

theorem length_owned_le (mine : Nat → Bool) (first next : Nat) : (owned mine first next).length ≤ next - first := by
  simpa [owned] using List.length_filter_le mine (List.range' first (next - first))

/-- A nonempty range of file positions below 2^63, the limit of `off64_t`. -/
structure IoRange where
  offset : Nat
  size : Nat
  size_pos : 0 < size
  fits : offset + size < 2 ^ 63

namespace IoRange

/-- The range cut at chunk boundaries. -/
def split (range : IoRange) : BlockSplit := ⟨chunksize, range.offset, range.size, by decide, range.size_pos⟩

/-- The chunks of the range that satisfy `mine`. -/
def chunks (range : IoRange) (mine : Nat → Bool) : List Nat :=
  owned mine range.split.first (range.split.last + 1)

variable (range : IoRange)

@[simp] theorem split_block : range.split.block = chunksize := rfl

@[simp] theorem split_start : range.split.start = range.offset := rfl

@[simp] theorem split_length : range.split.length = range.size := rfl

theorem last_small : range.split.last < 2 ^ 44 := by
  have small := range.fits
  refine (Nat.div_lt_iff_lt_mul range.split.block_pos).mpr ?_
  simp only [split, chunksize]
  omega

theorem total_owned_lt {mine : Nat → Bool} {first next : Nat} (least : range.split.first ≤ first)
    (most : next ≤ range.split.last + 1) : range.split.total (owned mine first next) < 2 ^ 64 := by
  have pads := range.split.total_add_pads (owned_nodup mine first next) (fun c member => by
    have inside := (mem_owned.mp member).1
    omega)
  have few : (owned mine first next).length * chunksize ≤ 2 ^ 44 * chunksize := by
    have small := range.last_small
    have length := length_owned_le mine first next
    exact Nat.mul_le_mul_right _ (by omega)
  simp only [split_block, chunksize] at *
  omega

theorem total_chunks_lt (mine : Nat → Bool) : range.split.total (range.chunks mine) < 2 ^ 64 :=
  range.total_owned_lt (Nat.le_refl _) (Nat.le_refl _)

theorem mem_chunks {mine : Nat → Bool} {c : Nat} :
    c ∈ range.chunks mine ↔ (range.split.first ≤ c ∧ c ≤ range.split.last) ∧ mine c = true := by
  rw [chunks, mem_owned, Nat.lt_succ_iff]

theorem total_chunks (mine : Nat → Bool) :
    range.split.total (range.chunks mine) + (if mine range.split.first then range.split.lpad else 0) +
      (if mine range.split.last then range.split.rpad else 0) = (range.chunks mine).length * chunksize := by
  have ordered := range.split.first_le_last
  have pads := range.split.total_add_pads (owned_nodup mine _ _) (fun c member => (range.mem_chunks.mp member).1)
  rw [← chunks] at pads
  simpa only [mem_chunks, Nat.le_refl, ordered, true_and, split_block] using pads

end IoRange

section Client
open ForwardSplit

variable {locate : Nat → Nat} {first last : Nat}

/-- The client's locals once the chunks before `next` have been visited. -/
structure Collected (locate : Nat → Nat) (first last next : Nat) (state : State) : Prop where
  chnkId : state.chnkId = BitVec.ofNat 64 next
  least : first ≤ next
  most : next ≤ last + 1
  chnks : ∀ target, state.targetChnks target =
    (owned (fun c => decide (locate c = target)) first next).map (BitVec.ofNat 64)
  distinct : state.targets.Nodup
  targets : ∀ target, target ∈ state.targets ↔ state.targetChnks target ≠ []
  startTarget : first < next → state.chnkStartTarget = locate first
  endTarget : next = last + 1 → state.chnkEndTarget = locate last

theorem Collected.toNat_chnkId {next : Nat} {state : State} (seen : Collected locate first last next state)
    (small : last + 1 < 2 ^ 64) : state.chnkId.toNat = next := by
  have most := seen.most
  rw [seen.chnkId, BitVec.toNat_ofNat, Nat.mod_eq_of_lt (by omega)]

theorem Collected.chnkId_le {next : Nat} {state : State} (seen : Collected locate first last next state)
    (small : last + 1 < 2 ^ 64) : state.chnkId ≤ BitVec.ofNat 64 last ↔ next ≤ last := by
  rw [BitVec.le_def, seen.toNat_chnkId small, BitVec.toNat_ofNat, Nat.mod_eq_of_lt (by omega)]

theorem Collected.step {next : Nat} {state : State} (seen : Collected locate first last next state)
    (more : next ≤ last) (small : last + 1 < 2 ^ 64) :
    Collected locate first last (next + 1) (body locate (.ofNat 64 first) (.ofNat 64 last) state) := by
  have here : state.chnkId.toNat = next := seen.toNat_chnkId small
  have atWord : ∀ other, other < 2 ^ 64 → (state.chnkId = BitVec.ofNat 64 other ↔ next = other) := by
    intro other fits
    rw [← BitVec.toNat_inj, here, BitVec.toNat_ofNat, Nat.mod_eq_of_lt fits]
  have firstLe := seen.least
  refine ⟨?_, by omega, by omega, ?_, ?_, ?_, ?_, ?_⟩
  · simp only [body, seen.chnkId]
    exact (BitVec.ofNat_add next 1).symm
  · intro target
    simp only [body, here, Function.update_apply]
    rw [owned_succ firstLe]
    by_cases same : target = locate next
    · subst target
      simp [seen.chnks, seen.chnkId]
    · simp [seen.chnks, same, Ne.symm same]
  · simp only [body, here]
    split
    next fresh =>
      rw [List.nodup_append]
      refine ⟨seen.distinct, by simp, ?_⟩
      intro old member other single same
      rw [List.mem_singleton.mp single] at same
      exact (seen.targets _).mp (same ▸ member) fresh
    next => exact seen.distinct
  · intro target
    simp only [body, here, Function.update_apply]
    by_cases same : target = locate next
    · subst target
      split
      next => simp
      next known => simpa using (seen.targets _).mpr known
    · split
      next => simp [same, seen.targets target]
      next => simpa [same] using seen.targets target
  · intro _
    simp only [body, here, atWord first (by omega)]
    split
    next same => rw [same]
    next different => exact seen.startTarget (by omega)
  · intro done
    have same : next = last := by omega
    simp only [body, here, atWord last (by omega), same, if_true]

/-- The loop over chunk ids ends and has grouped every chunk by its target. -/
theorem collect_spec (ordered : first ≤ last) (small : last + 1 < 2 ^ 64) :
    ∃ state, collect locate (.ofNat 64 first) (.ofNat 64 last) = some state ∧
      Collected locate first last (last + 1) state := by
  have start : Collected locate first last first (initial (.ofNat 64 first)) := by
    refine ⟨rfl, Nat.le_refl _, by omega, ?_, by simp [initial], by simp [initial], ?_, ?_⟩
    · intro target
      simp [initial, owned]
    · intro impossible
      omega
    · intro impossible
      omega
  have loop : ∃ state, collect locate (.ofNat 64 first) (.ofNat 64 last) = some state ∧
      (∃ next, Collected locate first last next state) ∧ decide (state.chnkId ≤ BitVec.ofNat 64 last) = false := by
    refine WhileLoop.run_total (fun state => ∃ next, Collected locate first last next state)
      (fun state => last + 1 - state.chnkId.toNat) ?_ ⟨first, start⟩
    rintro state ⟨next, seen⟩ go
    have after := seen.step ((seen.chnkId_le small).mp (of_decide_eq_true go)) small
    have more := after.most
    refine ⟨⟨_, after⟩, ?_⟩
    rw [after.toNat_chnkId small, seen.toNat_chnkId small]
    omega
  obtain ⟨state, ended, ⟨next, seen⟩, stopped⟩ := loop
  have most := seen.most
  have beyond := mt (seen.chnkId_le small).mpr (of_decide_eq_false stopped)
  have all : next = last + 1 := by omega
  exact ⟨state, ended, all ▸ seen⟩

end Client
section Daemon
open SrvSplit

/-- The task for the piece of the range in chunk `c`. -/
def taskAt (split : BlockSplit) (localOffset c : Nat) : Task :=
  { chnkId := .ofNat 64 c
    size := .ofNat 64 (split.size c)
    off := .ofNat 64 (split.pos c)
    buf := .ofNat 64 localOffset
    originOffset := .ofNat 64 (split.origin c)
    localOffset := .ofNat 64 localOffset }

/-- The tasks for a list of chunks, their pieces packed one after the other into the
daemon's buffer. -/
def tasksFrom (split : BlockSplit) : Nat → List Nat → List Task
  | _, [] => []
  | localOffset, c :: rest => taskAt split localOffset c :: tasksFrom split (localOffset + split.size c) rest

theorem tasksFrom_append (split : BlockSplit) (localOffset : Nat) (chunks others : List Nat) :
    tasksFrom split localOffset (chunks ++ others) =
      tasksFrom split localOffset chunks ++ tasksFrom split (localOffset + split.total chunks) others := by
  induction chunks generalizing localOffset with
  | nil => simp [tasksFrom]
  | cons c chunks ih => simp [tasksFrom, ih, Nat.add_assoc]

variable {range : IoRange} {mine : Nat → Bool} {input : DataIn}

/-- What the client tells the host that owns the chunks in `mine`. -/
structure Announces (range : IoRange) (mine : Nat → Bool) (input : DataIn) : Prop where
  offset : input.offset = .ofNat 64 range.split.lpad
  chunkN : input.chunkN = .ofNat 64 (range.chunks mine).length
  chunkStart : input.chunkStart = .ofNat 64 range.split.first
  chunkEnd : input.chunkEnd = .ofNat 64 range.split.last
  totalChunkSize : input.totalChunkSize = .ofNat 64 (range.split.total (range.chunks mine))
  bulkSize : input.bulkSize = .ofNat 64 range.size

/-- A daemon's locals once the chunks before `next` have been visited. -/
structure Scanned (range : IoRange) (mine : Nat → Bool) (next : Nat) (state : State) : Prop where
  chnkIdFile : state.chnkIdFile = .ofNat 64 next
  least : range.split.first ≤ next
  most : next ≤ range.split.last + 1
  chnkIdCurr : state.chnkIdCurr = .ofNat 64 (owned mine range.split.first next).length
  left : state.chnkSizeLeftHost = .ofNat 64 (range.split.total (owned mine next (range.split.last + 1)))
  transfer : owned mine next (range.split.last + 1) ≠ [] → state.transferSize = .ofNat 64 (min range.size chunksize)
  chnkPtr : state.chnkPtr = .ofNat 64 (range.split.total (owned mine range.split.first next))
  tasks : state.tasks = tasksFrom range.split 0 (owned mine range.split.first next)

theorem initial_scanned (announced : Announces range mine input) :
    Scanned range mine range.split.first (initial input) := by
  have small := range.fits
  have none : owned mine range.split.first range.split.first = [] := by simp [owned]
  refine ⟨announced.chunkStart, Nat.le_refl _, ?_, by simp [initial, none], announced.totalChunkSize, ?_,
    by simp [initial, none], by simp [initial, none, tasksFrom]⟩
  · have ordered := range.split.first_le_last
    omega
  · intro _
    simp only [initial, announced.bulkSize, chunkWord]
    have compare := Words.ofNat_le (show range.size < 2 ^ 64 by omega) (by decide : chunksize < 2 ^ 64)
    split
    next below => rw [Nat.min_eq_left (compare.mp below)]
    next above => rw [Nat.min_eq_right (Nat.le_of_not_le (mt compare.mpr above))]

theorem Scanned.skip {next : Nat} {state : State} (scanned : Scanned range mine next state)
    (inside : next ≤ range.split.last) (foreign : mine next = false) :
    Scanned range mine (next + 1) { state with chnkIdFile := state.chnkIdFile + 1 } := by
  have least := scanned.least
  have done : owned mine range.split.first (next + 1) = owned mine range.split.first next := by
    simp [owned_succ least, foreign]
  have rest : owned mine next (range.split.last + 1) = owned mine (next + 1) (range.split.last + 1) := by
    simp [owned_cons (Nat.lt_succ_of_le inside), foreign]
  refine ⟨?_, by omega, by omega, ?_, ?_, ?_, ?_, ?_⟩
  · simp only [scanned.chnkIdFile]
    exact (BitVec.ofNat_add next 1).symm
  · rw [done]
    exact scanned.chnkIdCurr
  · rw [← rest]
    exact scanned.left
  · rw [← rest]
    exact scanned.transfer
  · rw [done]
    exact scanned.chnkPtr
  · rw [done]
    exact scanned.tasks

/-- A taken chunk keeps the account, however its size was found. -/
theorem Scanned.advance {next : Nat} {state after : State} (scanned : Scanned range mine next state)
    (inside : next ≤ range.split.last) (holds : mine next = true)
    (file : after.chnkIdFile = state.chnkIdFile + 1) (curr : after.chnkIdCurr = state.chnkIdCurr + 1)
    (left : after.chnkSizeLeftHost = state.chnkSizeLeftHost - .ofNat 64 (range.split.size next))
    (ptr : after.chnkPtr = state.chnkPtr + .ofNat 64 (range.split.size next))
    (transfer : owned mine (next + 1) (range.split.last + 1) ≠ [] → after.transferSize = state.transferSize)
    (tasks : after.tasks = state.tasks ++
      [taskAt range.split (range.split.total (owned mine range.split.first next)) next]) :
    Scanned range mine (next + 1) after := by
  have least := scanned.least
  have done : owned mine range.split.first (next + 1) = owned mine range.split.first next ++ [next] := by
    simp [owned_succ least, holds]
  have rest : owned mine next (range.split.last + 1) = next :: owned mine (next + 1) (range.split.last + 1) := by
    simp [owned_cons (Nat.lt_succ_of_le inside), holds]
  refine ⟨?_, by omega, by omega, ?_, ?_, ?_, ?_, ?_⟩
  · rw [file, scanned.chnkIdFile, BitVec.ofNat_add]
    rfl
  · rw [curr, scanned.chnkIdCurr, done, List.length_append, BitVec.ofNat_add]
    rfl
  · have small := range.split.size_le_length next
    have fits := range.fits
    rw [range.split_length] at small
    rw [left, scanned.left, rest, BitVec.ofNat_sub_ofNat_of_le _ _ (by omega) (by simp)]
    simp
  · intro more
    rw [transfer more]
    exact scanned.transfer (by simp [rest])
  · rw [ptr, scanned.chnkPtr, done, BitVec.ofNat_add_ofNat]
    simp
  · rw [tasks, scanned.tasks, done, tasksFrom_append, Nat.zero_add]
    rfl

theorem first_transfer (announced : Announces range mine input) :
    (if input.offset + input.bulkSize ≤ chunkWord then input.bulkSize else chunkWord - input.offset) =
      .ofNat 64 (range.split.size range.split.first) := by
  have fits := range.fits
  have pad : range.split.lpad < chunksize := range.split.lpad_lt
  have size := range.split.size_first
  rw [range.split_length, range.split_block] at size
  rw [announced.offset, announced.bulkSize, chunkWord, BitVec.ofNat_add_ofNat,
    BitVec.ofNat_sub_ofNat_of_le _ _ (by simp only [chunksize] at pad; omega) (Nat.le_of_lt pad)]
  have compare := Words.ofNat_le (show range.split.lpad + range.size < 2 ^ 64 by simp only [chunksize] at pad; omega)
    (by decide : chunksize < 2 ^ 64)
  by_cases single : range.split.lpad + range.size ≤ chunksize
  · rw [if_pos (compare.mpr single), size, Nat.min_eq_left (by omega)]
  · rw [if_neg (mt compare.mp single), size, Nat.min_eq_right (by omega)]

/-- The counter singles out the last chunk of the host. -/
theorem chnkIdCurr_last_iff {next : Nat} {state : State} (announced : Announces range mine input)
    (scanned : Scanned range mine next state) (inside : next ≤ range.split.last) (holds : mine next = true) :
    state.chnkIdCurr = input.chunkN - 1 ↔ owned mine (next + 1) (range.split.last + 1) = [] := by
  have least := scanned.least
  have small := range.last_small
  have count : (range.chunks mine).length = (owned mine range.split.first next).length + 1 +
      (owned mine (next + 1) (range.split.last + 1)).length := by
    rw [IoRange.chunks, ← owned_append least (Nat.le_succ_of_le inside), owned_cons (show next < _ + 1 by omega)]
    simp only [holds, List.length_append, if_true, List.length_singleton]
    omega
  have short := length_owned_le mine range.split.first (range.split.last + 1)
  rw [← IoRange.chunks] at short
  rw [scanned.chnkIdCurr, announced.chunkN, show (1 : Word) = .ofNat 64 1 from rfl,
    BitVec.ofNat_sub_ofNat_of_le _ 1 (by decide) (by omega), Words.ofNat_inj (by omega) (by omega),
    ← List.length_eq_zero_iff]
  omega

/-- The last chunk of a host takes what is left for the host, every other one a
whole chunk. -/
theorem later_transfer {next : Nat} {state : State} (announced : Announces range mine input)
    (scanned : Scanned range mine next state) (inside : next ≤ range.split.last) (holds : mine next = true)
    (aligned : next = range.split.first → range.split.lpad = 0) :
    (if state.chnkIdCurr = input.chunkN - 1 then state.chnkSizeLeftHost else state.transferSize) =
      .ofNat 64 (range.split.size next) := by
  have rest : owned mine next (range.split.last + 1) = next :: owned mine (next + 1) (range.split.last + 1) := by
    simp [owned_cons (Nat.lt_succ_of_le inside), holds]
  have lastIff := chnkIdCurr_last_iff announced scanned inside holds
  by_cases final : owned mine (next + 1) (range.split.last + 1) = []
  · rw [if_pos (lastIff.mpr final), scanned.left, rest, final]
    simp
  · obtain ⟨other, member⟩ := List.exists_mem_of_ne_nil _ final
    obtain ⟨beyond, _⟩ := mem_owned.mp member
    have whole := range.split.size_inner scanned.least (by omega) aligned
    have fitting := range.split.size_le_length next
    rw [whole, range.split_block, range.split_length] at fitting
    rw [if_neg (mt lastIff.mp final), scanned.transfer (by simp [rest]), whole, range.split_block,
      Nat.min_eq_right fitting]

theorem later_origin {next : Nat} {state : State} (announced : Announces range mine input)
    (scanned : Scanned range mine next state) (inside : next ≤ range.split.last)
    (aligned : next = range.split.first → range.split.lpad = 0) :
    (if BitVec.slt 0 input.offset then chunkWord - input.offset + (state.chnkIdFile - input.chunkStart - 1) * chunkWord
      else (state.chnkIdFile - input.chunkStart) * chunkWord) = .ofNat 64 (range.split.origin next) := by
  have least := scanned.least
  have small := range.last_small
  have pad : range.split.lpad < chunksize := range.split.lpad_lt
  have startEq := range.split.start_eq
  rw [range.split.origin_eq least inside, announced.offset, announced.chunkStart, scanned.chnkIdFile, chunkWord,
    Words.zero_slt_ofNat (by simp only [chunksize] at pad; omega), show (1 : Word) = .ofNat 64 1 from rfl,
    BitVec.ofNat_sub_ofNat_of_le next _ (by omega) least]
  simp only [range.split_block, chunksize] at pad startEq ⊢
  by_cases padded : 0 < range.split.lpad
  · have later : next ≠ range.split.first := fun same => by have := aligned same; omega
    rw [if_pos (decide_eq_true padded), if_neg later, BitVec.ofNat_sub_ofNat_of_le _ _ (by omega) (by omega),
      BitVec.ofNat_sub_ofNat_of_le _ 1 (by omega) (by omega), ← BitVec.ofNat_mul, BitVec.ofNat_add_ofNat]
    congr 1
    omega
  · rw [if_neg (by simpa using padded), ← BitVec.ofNat_mul]
    congr 1
    split_ifs with first
    · omega
    · omega

theorem Scanned.take {next : Nat} {state : State} (scanned : Scanned range mine next state)
    (announced : Announces range mine input) (inside : next ≤ range.split.last) (holds : mine next = true) :
    Scanned range mine (next + 1) (take input state) := by
  have least := scanned.least
  have small := range.last_small
  have pad : range.split.lpad < chunksize := range.split.lpad_lt
  have pos := range.split.pos_eq least inside
  have origin := range.split.origin_eq least inside
  have sameFile : state.chnkIdFile = input.chunkStart ↔ next = range.split.first := by
    rw [scanned.chnkIdFile, announced.chunkStart]
    exact Words.ofNat_inj (by omega) (by omega)
  have offsetPos : BitVec.slt 0 input.offset = decide (0 < range.split.lpad) := by
    rw [announced.offset]
    exact Words.zero_slt_ofNat (by simp only [chunksize] at pad; omega)
  have off : (if state.chnkIdFile = input.chunkStart then input.offset else 0) = .ofNat 64 (range.split.pos next) := by
    rw [pos]
    split
    next same => rw [if_pos (sameFile.mp same), announced.offset]
    next other => rw [if_neg (mt sameFile.mpr other)]; rfl
  unfold SrvSplit.take
  rw [off]
  split
  next isFirst =>
    obtain ⟨same, _⟩ := isFirst
    have first := sameFile.mp same
    have transfer := first_transfer announced
    refine scanned.advance inside holds rfl rfl ?_ ?_ (fun _ => rfl) ?_
    · rw [transfer, first]
    · rw [transfer, first]
    · have none : owned mine range.split.first range.split.first = [] := by simp [owned]
      have start := scanned.chnkPtr
      have file := scanned.chnkIdFile
      rw [if_pos first, first] at origin
      simp only [transfer, first, none, taskAt, origin] at start file ⊢
      simp [start, file]
  next notFirst =>
    have aligned : next = range.split.first → range.split.lpad = 0 := by
      intro first
      rw [sameFile, offsetPos] at notFirst
      simpa [first] using notFirst
    have transfer := later_transfer announced scanned inside holds aligned
    have packed : input.totalChunkSize - state.chnkSizeLeftHost =
        .ofNat 64 (range.split.total (owned mine range.split.first next)) := by
      have all : owned mine _ next ++ owned mine next _ = _ := owned_append least (Nat.le_succ_of_le inside)
      rw [announced.totalChunkSize, scanned.left, IoRange.chunks, ← all, BitVec.ofNat_sub_ofNat_of_le _ _
        (range.total_owned_lt least (Nat.le_refl _)) (by simp)]
      simp
    refine scanned.advance inside holds rfl rfl ?_ ?_ ?_ ?_
    · rw [transfer]
    · rw [transfer]
    · intro more
      exact if_neg (mt (chnkIdCurr_last_iff announced scanned inside holds).mp more)
    · rw [transfer, packed, later_origin announced scanned inside aligned, scanned.chnkPtr, scanned.chnkIdFile]
      rfl

/-- The loop of a daemon that is told about its chunks, and recognises them, ends
with one task for each of them and nothing left. -/
theorem run_spec {strHash : Str → Nat} {forwarding : Bool} (announced : Announces range mine input)
    (recognises : ∀ c, range.split.first ≤ c → c ≤ range.split.last →
      (!forwarding && locate strHash input c != input.hostId.toNat) = !mine c) :
    ∃ state, run strHash forwarding input = some state ∧
      state.tasks = tasksFrom range.split 0 (range.chunks mine) ∧ state.chnkSizeLeftHost = 0 := by
  have small := range.last_small
  have short := length_owned_le mine range.split.first (range.split.last + 1)
  have fileLt : ∀ {next state}, Scanned range mine next state →
      (guard input state = true ↔ next < range.split.last ∨
        (owned mine range.split.first next).length < (range.chunks mine).length) := by
    intro next state scanned
    have most := scanned.most
    have shorter := length_owned_le mine range.split.first next
    rw [SrvSplit.guard, Bool.or_eq_true, decide_eq_true_eq, decide_eq_true_eq, scanned.chnkIdFile, scanned.chnkIdCurr,
      announced.chunkEnd, announced.chunkN, Words.ofNat_lt (by omega) (by omega),
      Words.ofNat_lt (by omega) (by rw [IoRange.chunks]; omega)]
  have loop : ∃ state, run strHash forwarding input = some state ∧
      (∃ next, Scanned range mine next state) ∧ guard input state = false := by
    refine WhileLoop.run_total (fun state => ∃ next, Scanned range mine next state)
      (fun state => range.split.last + 1 - state.chnkIdFile.toNat) ?_ ⟨_, initial_scanned announced⟩
    rintro state ⟨next, scanned⟩ go
    have most := scanned.most
    have inside : next ≤ range.split.last := by
      rcases (fileLt scanned).mp go with less | fewer
      · omega
      · by_contra beyond
        have all : next = range.split.last + 1 := by omega
        rw [all, ← IoRange.chunks] at fewer
        omega
    have toNat : state.chnkIdFile.toNat = next := by
      rw [scanned.chnkIdFile, Words.toNat_ofNat (by omega)]
    have after : Scanned range mine (next + 1) (body strHash forwarding input state) := by
      rw [body, toNat, recognises next scanned.least inside]
      cases holds : mine next with
      | true => exact scanned.take announced inside holds
      | false => exact scanned.skip inside holds
    refine ⟨⟨_, after⟩, ?_⟩
    rw [after.chnkIdFile, toNat, Words.toNat_ofNat (by omega)]
    omega
  obtain ⟨state, ended, ⟨next, scanned⟩, stopped⟩ := loop
  have least := scanned.least
  have most := scanned.most
  have past := mt (fileLt scanned).mpr (by rw [stopped]; decide)
  have joined : owned mine _ next ++ owned mine next _ = _ := owned_append least most
  have rest : owned mine next (range.split.last + 1) = [] := by
    have lengths := congrArg List.length joined
    rw [List.length_append] at lengths
    rw [← List.length_eq_zero_iff]
    rw [IoRange.chunks] at past
    omega
  have done : owned mine range.split.first next = range.chunks mine := by
    rw [IoRange.chunks, ← joined, rest, List.append_nil]
  refine ⟨state, ended, ?_, ?_⟩
  · rw [scanned.tasks, done]
  · rw [scanned.left, rest]
    rfl

end Daemon
section Requests
open ForwardSplit

variable (range : IoRange)

theorem IoRange.toNat_offset : (BitVec.ofNat 64 range.offset).toNat = range.offset := by
  have small := range.fits
  exact Words.toNat_ofNat (by omega)

theorem IoRange.chnkIdForOffset_first :
    ChunkCalc.chnkIdForOffset (.ofNat 64 range.offset) chunkWord = .ofNat 64 range.split.first := by
  have small := range.fits
  have toNat := range.toNat_offset
  apply BitVec.eq_of_toNat_eq
  rw [chunkWord, ChunkCalc.toNat_chnkIdForOffset (by omega), toNat, Words.toNat_ofNat]
  · rfl
  · have ordered := range.split.first_le_last
    have last := range.last_small
    omega

theorem IoRange.chnkIdForOffset_last :
    ChunkCalc.chnkIdForOffset (.ofNat 64 range.offset + .ofNat 64 range.size - 1) chunkWord =
      .ofNat 64 range.split.last := by
  have small := range.fits
  have positive := range.size_pos
  have toNat : (BitVec.ofNat 64 (range.offset + range.size - 1)).toNat = range.offset + range.size - 1 :=
    Words.toNat_ofNat (by omega)
  rw [BitVec.ofNat_add_ofNat, show (1 : Word) = .ofNat 64 1 from rfl,
    BitVec.ofNat_sub_ofNat_of_le _ 1 (by decide) (by omega)]
  apply BitVec.eq_of_toNat_eq
  rw [chunkWord, ChunkCalc.toNat_chnkIdForOffset (by omega), toNat, Words.toNat_ofNat]
  · rfl
  · have last := range.last_small
    omega

theorem IoRange.chnkLpad_eq : ChunkCalc.chnkLpad (.ofNat 64 range.offset) chunkWord = .ofNat 64 range.split.lpad := by
  have pad : range.split.lpad < chunksize := range.split.lpad_lt
  apply BitVec.eq_of_toNat_eq
  rw [chunkWord, ChunkCalc.toNat_chnkLpad, range.toNat_offset, Words.toNat_ofNat (by simp only [chunksize] at pad; omega)]
  rfl

/-- Negating a word and taking the remainder pads to the next chunk boundary. -/
theorem IoRange.chnkRpad_eq :
    ChunkCalc.chnkRpad (.ofNat 64 range.offset + .ofNat 64 range.size) chunkWord = .ofNat 64 range.split.rpad := by
  have small := range.fits
  have pad : range.split.rpad < chunksize := Nat.mod_lt _ range.split.block_pos
  apply BitVec.eq_of_toNat_eq
  rw [chunkWord, ChunkCalc.toNat_chnkRpad, BitVec.ofNat_add_ofNat, Words.toNat_ofNat (by omega),
    Words.toNat_ofNat (by simp only [chunksize] at pad; omega)]
  simp only [IoRange.split, BlockSplit.rpad, chunksize]
  omega

/-- The request to `target` announces exactly the chunks that `locate` puts there. -/
structure Addresses (range : IoRange) (locate : Nat → Nat) (hosts : Nat) (path : Str) (target : Nat)
    (input : DataIn) : Prop where
  announces : Announces range (fun c => decide (locate c = target)) input
  path : input.path = path
  hostId : input.hostId = .ofNat 64 target
  hostSize : input.hostSize = .ofNat 64 hosts

theorem IoRange.input_addresses {locate : Nat → Nat} {state : State} (hosts : Nat) (path : Str) (target : Nat)
    (seen : Collected locate range.split.first range.split.last (range.split.last + 1) state) :
    Addresses range locate hosts path target (input hosts path (.ofNat 64 range.offset) (.ofNat 64 range.size)
      (.ofNat 64 range.split.first) (.ofNat 64 range.split.last) state target) := by
  have last := range.last_small
  have few := length_owned_le (fun c => decide (locate c = target)) range.split.first (range.split.last + 1)
  have pads := range.total_chunks (fun c => decide (locate c = target))
  have lpad : range.split.lpad < chunksize := range.split.lpad_lt
  have rpad : range.split.rpad < chunksize := Nat.mod_lt _ range.split.block_pos
  have count : (state.targetChnks target).length = (range.chunks fun c => decide (locate c = target)).length := by
    rw [seen.chnks, List.length_map, IoRange.chunks]
  rw [← IoRange.chunks] at few
  have start := seen.startTarget (by have := range.split.first_le_last; omega)
  have stop := seen.endTarget rfl
  refine ⟨⟨range.chnkLpad_eq, by simp only [input, count], rfl, rfl, ?_, rfl⟩, rfl, rfl, rfl⟩
  simp only [input, count, start, stop, range.chnkLpad_eq, range.chnkRpad_eq, @eq_comm _ target]
  rw [chunkWord, ← BitVec.ofNat_mul]
  simp only [decide_eq_true_eq, chunksize] at pads lpad rpad ⊢
  split_ifs at pads ⊢
  · rw [BitVec.ofNat_sub_ofNat_of_le _ _ (by omega) (by omega), BitVec.ofNat_sub_ofNat_of_le _ _ (by omega) (by omega)]
    congr 1
    omega
  · rw [BitVec.ofNat_sub_ofNat_of_le _ _ (by omega) (by omega)]
    congr 1
    omega
  · rw [BitVec.ofNat_sub_ofNat_of_le _ _ (by omega) (by omega)]
    congr 1
    omega
  · congr 1
    omega

/-- The client's requests: one for each host that owns a chunk of the range. -/
theorem IoRange.inputs_spec (locate : Nat → Nat) (hosts : Nat) (path : Str) :
    ∃ (targets : List Nat) (request : Nat → DataIn), inputs locate hosts path (.ofNat 64 range.offset) (.ofNat 64 range.size) =
        some (targets.map fun target => (target, request target)) ∧ targets.Nodup ∧
      (∀ target, target ∈ targets ↔ range.chunks (fun c => decide (locate c = target)) ≠ []) ∧
      ∀ target, Addresses range locate hosts path target (request target) := by
  have last := range.last_small
  obtain ⟨state, collected, seen⟩ := @collect_spec locate _ _ range.split.first_le_last (by omega)
  refine ⟨state.targets, _, ?_, seen.distinct, ?_, fun target => range.input_addresses hosts path target seen⟩
  · rw [inputs, range.chnkIdForOffset_first, range.chnkIdForOffset_last, collected]
    rfl
  · intro target
    rw [seen.targets, seen.chnks, Ne, List.map_eq_nil_iff, IoRange.chunks]

end Requests
end GekkoFwd.Proofs.ChunkPartition
