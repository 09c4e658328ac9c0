import GekkoFwd.ConcurrentWrite

/-! A read of a file that is written at the same time. The start of each read handler, every
local call of an I/O task and every answer is a step on its own, and the steps of the writes
may come between any two of them. -/

namespace GekkoFwd.ConcurrentRead
open SrvSplit

/-- The arguments of a `gkfs_pread`, and what the hosts' pools do for it. -/
structure Call (deployment : Deployment) where
  client : Client deployment
  buf : List Byte
  offset : Word
  pools : Nat → IoPool

/-- How far a task is: it has its chunk file open after so many rounds of the loop in
`read_chunk`, or its eventual is set. -/
inductive Progress where
  | created
  | opened (file : List Str) (round : Nat) (bytes : List Byte)
  | set (read : Except Int (List Byte))

/-- `read_chunk` up to its `open`. -/
def openChunk (ndebug : Bool) (path : Str) (task : Task) (storage : Storage) : Except Exn (List Str) := do
  assertThat ndebug (decide (task.off.toNat + task.size.toNat ≤ chunksize))
  let file ← ChunkStorage.chunkFile ndebug path task.chunkId
  match storage.openRead file with
  | .error errno => .error (.systemError errno)
  | .ok _ => .ok file

/-- The next local call of `read_file_abt`, which may put bytes into the daemon's buffer. -/
def localCall (ndebug : Bool) (path : Str) (schedule : ChunkStorage.PreadSchedule) (task : Task) (storage : Storage) (bulk : List Byte) :
    Progress → Option (Progress × List Byte)
  | .created =>
    match openChunk ndebug path task storage with
    | .ok file => some (.opened file 0 [], bulk)
    | .error (.systemError errno) => some (.set (.error (-errno.value)), bulk)
    | .error _ => none
  | .opened file round bytes =>
    -- nobody unlinks chunk files here: the name leads to the file that is open
    match storage.openRead file, schedule round with
    | .error _, _ => none
    | .ok _, .error errno => some (.set (.error (-errno.value)), bulk)
    | .ok content, .ok most =>
      let got := ByteFile.pread content (min (task.size.toNat - bytes.length) (max most 1)) (task.off.toNat + bytes.length)
      let filled := ByteFile.pwrite bulk got (task.buf.toNat + bytes.length)
      if got = [] then some (.set (.ok bytes), bulk)
      else if (bytes ++ got).length = task.size.toNat then some (.set (.ok (bytes ++ got)), filled)
      else some (.opened file (round + 1) (bytes ++ got), filled)
  | .set _ => none

/-- A read request: on its way, inside its handler, or answered. -/
inductive Job where
  | posted (target : Nat) (input : DataIn)
  | running (target : Nat) (input : DataIn) (tasks : List Task) (bulk : List Byte) (progress : Task → Progress)
  | answered (reply : Int × Word × List (Nat × List Byte))

/-- Where the call is: before its first message, in `forward_read`, or back. -/
inductive Phase where
  | called
  | waiting (jobs : List Job)
  | returned (result : SysResult Word) (buf : List Byte)

structure State (n : Nat) where
  writes : ConcurrentWrite.State n
  phase : Phase

/-- What `rpc_srv_read` and its tasks do step by step. -/
inductive JobStep {deployment : Deployment} (call : Call deployment) (cluster : Cluster) : Job → Job → Prop where
  | accept {target : Nat} {input : DataIn} {final : SrvSplit.State}
      (ran : run deployment.strHash deployment.forwarding input = some final) :
      JobStep call cluster (.posted target input)
        (.running target input final.tasks (List.replicate input.totalChunkSize.toNat 0) fun _ => .created)
  | task {target : Nat} {input : DataIn} {tasks : List Task} {bulk filled : List Byte} {progress : Task → Progress} {task : Task}
      {stepped : Progress} (created : task ∈ tasks)
      (ran : localCall deployment.ndebug input.path ((call.pools target).pread task.chnkId) task
        (cluster.storage (deployment.backend target)) bulk (progress task) = some (stepped, filled)) :
      JobStep call cluster (.running target input tasks bulk progress)
        (.running target input tasks filled (Function.update progress task stepped))
  | answer {target : Nat} {input : DataIn} {tasks : List Task} {bulk : List Byte} {progress : Task → Progress}
      {read : Task → Except Int (List Byte)} (set : ∀ task ∈ tasks, progress task = .set (read task)) :
      JobStep call cluster (.running target input tasks bulk progress)
        (.answered (Daemon.awaitReads bulk (tasks.map fun task => (task, read task))))

/-- One step of the call, or of one of the writes. -/
inductive Step {deployment : Deployment} (path : Str) {n : Nat} (writes : Fin n → ConcurrentWrite.Call deployment)
    (call : Call deployment) :
    State n → State n → Prop where
  | post {world : ConcurrentWrite.State n} {requests : List (Nat × DataIn)}
      (split : Transfer.inputs (.forwardRead call.offset (.ofNat 64 call.buf.length)) call.client path = some requests) :
      Step path writes call ⟨world, .called⟩ ⟨world, .waiting (requests.map fun request => .posted request.1 request.2)⟩
  | job {world : ConcurrentWrite.State n} {before after : List Job} {job stepped : Job} (step : JobStep call world.cluster job stepped) :
      Step path writes call ⟨world, .waiting (before ++ job :: after)⟩ ⟨world, .waiting (before ++ stepped :: after)⟩
  | finish {world : ConcurrentWrite.State n} {replies : List (Int × Word × List (Nat × List Byte))} :
      Step path writes call ⟨world, .waiting (replies.map .answered)⟩
        ⟨world, .returned (ClientOps.collectSizes (replies.map fun reply => some (reply.1, reply.2.1)))
          (ClientOps.receive call.buf (replies.map some))⟩
  | write {world after : ConcurrentWrite.State n} {phase : Phase} (step : ConcurrentWrite.Step path writes world after) :
      Step path writes call ⟨world, phase⟩ ⟨after, phase⟩

end GekkoFwd.ConcurrentRead
