import Mathlib.Logic.Function.Basic
import GekkoFwd.Lib.WhileLoop
import GekkoFwd.ChunkCalc
import GekkoFwd.Distributor

/-! How one I/O is split. The client groups the chunks of the request by host
(`forward_write`, `forward_read`); every addressed daemon finds its own chunks
again from the interval it is sent (`rpc_srv_write`, `rpc_srv_read`). -/

namespace GekkoFwd

/-- `config::rpc::chunksize` as an operand of 64-bit arithmetic. -/
def chunkWord : Word := .ofNat 64 chunksize

/-- `rpc_write_data_in_t` and `rpc_read_data_in_t`. The bulk handle stands for the
client buffer it exposes, whose size is `bulkSize`. -/
structure DataIn where
  path : Str
  offset : Word
  hostId : Word
  hostSize : Word
  chunkN : Word
  chunkStart : Word
  chunkEnd : Word
  totalChunkSize : Word
  bulkSize : Word
  deriving DecidableEq

namespace ForwardSplit

/-- Locals of the client's loop over chunk ids. `targetChnks` is the `std::map` from
a target to its vector of chunks, which is never empty once inserted. -/
structure State where
  chnkId : Word
  targetChnks : Nat → List Word
  targets : List Nat
  chnkStartTarget : Nat
  chnkEndTarget : Nat

def initial (chnkStart : Word) : State := ⟨chnkStart, fun _ => [], [], 0, 0⟩

def body (locate : Nat → Nat) (chnkStart chnkEnd : Word) (state : State) : State :=
  let target := locate state.chnkId.toNat
  { chnkId := state.chnkId + 1
    targetChnks := Function.update state.targetChnks target (state.targetChnks target ++ [state.chnkId])
    targets := if state.targetChnks target = [] then state.targets ++ [target] else state.targets
    chnkStartTarget := if state.chnkId = chnkStart then target else state.chnkStartTarget
    chnkEndTarget := if state.chnkId = chnkEnd then target else state.chnkEndTarget }

/-- `for (chnk_id = chnk_start; chnk_id <= chnk_end; chnk_id++)`, `none` when the
loop never ends. -/
def collect (locate : Nat → Nat) (chnkStart chnkEnd : Word) : Option State :=
  WhileLoop.run (fun state => decide (state.chnkId ≤ chnkEnd)) (body locate chnkStart chnkEnd) (initial chnkStart)

def input (hosts : Nat) (path : Str) (offset size chnkStart chnkEnd : Word) (state : State) (target : Nat) : DataIn :=
  let chunkN := BitVec.ofNat 64 (state.targetChnks target).length
  let total := chunkN * chunkWord
  -- receiver of the first chunk must subtract the offset from the first chunk
  let total := if target = state.chnkStartTarget then total - ChunkCalc.chnkLpad offset chunkWord else total
  -- receiver of the last chunk must subtract
  let total := if target = state.chnkEndTarget then total - ChunkCalc.chnkRpad (offset + size) chunkWord else total
  { path
    offset := ChunkCalc.chnkLpad offset chunkWord
    hostId := .ofNat 64 target
    hostSize := .ofNat 64 hosts
    chunkN
    chunkStart := chnkStart
    chunkEnd := chnkEnd
    totalChunkSize := total
    bulkSize := size }

/-- The requests of one I/O in the order they are posted, each with its target. -/
def inputs (locate : Nat → Nat) (hosts : Nat) (path : Str) (offset size : Word) : Option (List (Nat × DataIn)) :=
  let chnkStart := ChunkCalc.chnkIdForOffset offset chunkWord
  let chnkEnd := ChunkCalc.chnkIdForOffset (offset + size - 1) chunkWord
  (collect locate chnkStart chnkEnd).map fun state =>
    state.targets.map fun target => (target, input hosts path offset size chnkStart chnkEnd state target)

end ForwardSplit

/-- The calls that move data. Past the first line of `forward_write`, which finds the
offset, both functions build their requests in the same way. -/
inductive Transfer where
  | forwardWrite (appendFlag : Bool) (inOffset writeSize updatedMetadentrySize : Word)
  | forwardRead (offset readSize : Word)

namespace Transfer

def offset : Transfer → Word
  | .forwardWrite appendFlag inOffset writeSize updatedMetadentrySize =>
    if appendFlag then inOffset else updatedMetadentrySize - writeSize
  | .forwardRead offset _ => offset

/-- The metadata host answers with the end of the range. -/
theorem offset_forwardWrite (appendFlag : Bool) (inOffset writeSize : Word) :
    offset (.forwardWrite appendFlag inOffset writeSize (writeSize + inOffset)) = inOffset := by
  cases appendFlag with
  | true => rfl
  | false => rw [offset, if_neg Bool.false_ne_true, BitVec.add_comm, BitVec.add_sub_cancel]

def size : Transfer → Word
  | .forwardWrite _ _ writeSize _ => writeSize
  | .forwardRead _ readSize => readSize

def inputs {deployment : Deployment} (transfer : Transfer) (client : Client deployment) (path : Str) :
    Option (List (Nat × DataIn)) :=
  ForwardSplit.inputs (client.locateData path) deployment.hosts path transfer.offset transfer.size

end Transfer

namespace SrvSplit

/-- One chunk of a request on its daemon: the arguments of the I/O task and the two
ends of its bulk transfer. `buf` is relative to the daemon's own buffer. -/
structure Task where
  chnkId : Word
  size : Word
  off : Word
  buf : Word
  originOffset : Word
  localOffset : Word
  deriving DecidableEq, Inhabited

/-- The number that `write_chunk` and `read_chunk` get: their `chunk_id` is an `unsigned int`. -/
def Task.chunkId (task : Task) : Nat := task.chnkId.toNat % 2 ^ 32

structure State where
  chnkIdFile : Word
  chnkIdCurr : Word
  chnkSizeLeftHost : Word
  transferSize : Word
  chnkPtr : Word
  tasks : List Task
  deriving Inhabited

def initial (input : DataIn) : State :=
  { chnkIdFile := input.chunkStart
    chnkIdCurr := 0
    chnkSizeLeftHost := input.totalChunkSize
    transferSize := if input.bulkSize ≤ chunkWord then input.bulkSize else chunkWord
    chnkPtr := 0
    tasks := [] }

def guard (input : DataIn) (state : State) : Bool :=
  decide (state.chnkIdFile < input.chunkEnd) || decide (state.chnkIdCurr < input.chunkN)

/-- The chunk at `chnkIdFile` becomes the next task. -/
def take (input : DataIn) (state : State) : State :=
  let off := if state.chnkIdFile = input.chunkStart then input.offset else 0
  if state.chnkIdFile = input.chunkStart ∧ (0 : Word).slt input.offset then
    -- a request inside the first chunk transfers all of its bytes here
    let size := if input.offset + input.bulkSize ≤ chunkWord then input.bulkSize else chunkWord - input.offset
    { chnkIdFile := state.chnkIdFile + 1
      chnkIdCurr := state.chnkIdCurr + 1
      chnkSizeLeftHost := state.chnkSizeLeftHost - size
      transferSize := state.transferSize
      chnkPtr := state.chnkPtr + size
      tasks := state.tasks ++ [⟨state.chnkIdFile, size, off, state.chnkPtr, 0, 0⟩] }
  else
    let localOffset := input.totalChunkSize - state.chnkSizeLeftHost
    let originOffset :=
      if (0 : Word).slt input.offset then
        chunkWord - input.offset + (state.chnkIdFile - input.chunkStart - 1) * chunkWord
      else (state.chnkIdFile - input.chunkStart) * chunkWord
    -- the last chunk of this host takes what is left
    let size := if state.chnkIdCurr = input.chunkN - 1 then state.chnkSizeLeftHost else state.transferSize
    { chnkIdFile := state.chnkIdFile + 1
      chnkIdCurr := state.chnkIdCurr + 1
      chnkSizeLeftHost := state.chnkSizeLeftHost - size
      transferSize := size
      chnkPtr := state.chnkPtr + size
      tasks := state.tasks ++ [⟨state.chnkIdFile, size, off, state.chnkPtr, originOffset, localOffset⟩] }

/-- The `SimpleHashDistributor` the handler builds from the request's host fields. -/
def locate (strHash : Str → Nat) (input : DataIn) (chnkId : Nat) : Nat :=
  (Distributor.simpleHash (input.hostId.toNat % 2 ^ 32) (input.hostSize.toNat % 2 ^ 32)).locateData
    strHash input.path chnkId

def body (strHash : Str → Nat) (forwarding : Bool) (input : DataIn) (state : State) : State :=
  -- the forwarding build compiles the hash filter out
  if !forwarding && locate strHash input state.chnkIdFile.toNat != input.hostId.toNat then
    { state with chnkIdFile := state.chnkIdFile + 1 }
  else take input state

/-- The chunk loop of a data handler, `none` when it never ends. -/
def run (strHash : Str → Nat) (forwarding : Bool) (input : DataIn) : Option State :=
  WhileLoop.run (guard input) (body strHash forwarding input) (initial input)

/-- A request, the host it was sent to, and the locals of the handler after its loop. -/
structure Served where
  host : Nat
  input : DataIn
  final : State

def runAll (strHash : Str → Nat) (forwarding : Bool) (requests : List (Nat × DataIn)) : Option (List Served) :=
  requests.mapM fun request => (run strHash forwarding request.2).map fun final => ⟨request.1, request.2, final⟩

end SrvSplit
end GekkoFwd
