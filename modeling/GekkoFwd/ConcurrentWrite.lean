import GekkoFwd.ClientOps

/-! Writes to one file that run at the same time. The update of the size, the start of
each write handler, every I/O task and every answer is a step on its own, and the steps
of different calls may come in any order. -/

namespace GekkoFwd.ConcurrentWrite
open SrvSplit

/-- The arguments of a `gkfs_pwrite`, and what the hosts' pools do for it. -/
structure Call (deployment : Deployment) where
  client : Client deployment
  appendFlag : Bool
  buf : List Byte
  offset : Word
  pools : Nat → IoPool

/-- A write request: on its way, inside its handler, or answered. The eventuals of the
tasks that have run are set. -/
inductive Job where
  | posted (target : Nat) (input : DataIn)
  | running (target : Nat) (input : DataIn) (tasks : List Task) (eventuals : List (Task × Int))
  | answered (reply : Int × Word)

/-- Where a call is: before its first message, in `forward_write`, or back. -/
inductive Phase where
  | called
  | waiting (jobs : List Job)
  | returned (result : SysResult Word)

structure State (n : Nat) where
  cluster : Cluster
  phases : Fin n → Phase

/-- What `rpc_srv_write` and its tasks do step by step. -/
inductive JobStep {deployment : Deployment} (call : Call deployment) : Cluster → Job → Cluster → Job → Prop where
  | accept {cluster : Cluster} {target : Nat} {input : DataIn} {final : SrvSplit.State}
      (ran : run deployment.strHash deployment.forwarding input = some final) :
      JobStep call cluster (.posted target input) cluster (.running target input final.tasks [])
  | task {cluster : Cluster} {target : Nat} {input : DataIn} {tasks : List Task} {eventuals : List (Task × Int)}
      {task : Task} {wrote : Int} {store : Storage} (created : task ∈ tasks) (unset : task ∉ eventuals.map Prod.fst)
      (ran : Daemon.writeFileAbt deployment.ndebug input.path (Daemon.pullAll input call.buf tasks)
        ((call.pools target).pwrite task.chnkId) task (cluster.storage (deployment.backend target)) = (some wrote, store)) :
      JobStep call cluster (.running target input tasks eventuals) (cluster.setStore (deployment.backend target) store)
        (.running target input tasks (eventuals ++ [(task, wrote)]))
  | answer {cluster : Cluster} {target : Nat} {input : DataIn} {tasks : List Task} {eventuals : List (Task × Int)}
      (set : ∀ task ∈ tasks, task ∈ eventuals.map Prod.fst) :
      JobStep call cluster (.running target input tasks eventuals) cluster
        (.answered (Daemon.awaitWrites (tasks.map fun task => (eventuals.lookup task).getD 0)))

/-- One step of one call, or of the database, which may merge operands at any time. -/
inductive Step {deployment : Deployment} (path : Str) {n : Nat} (calls : Fin n → Call deployment) :
    State n → State n → Prop where
  | update {state : State n} {i : Fin n} {retSize : Word} {after : Cluster} {requests : List (Nat × DataIn)}
      (phase : state.phases i = .called)
      (handled : Cluster.handle deployment (calls i).pools ((calls i).client.locateFileMetadata path)
        (.updateMetadentrySize path (.ofNat 64 (calls i).buf.length) (calls i).offset (calls i).appendFlag) state.cluster =
          (some (0, retSize), after))
      (split : Transfer.inputs (.forwardWrite (calls i).appendFlag (calls i).offset (.ofNat 64 (calls i).buf.length) retSize)
        (calls i).client path = some requests) :
      Step path calls state
        ⟨after, Function.update state.phases i (.waiting (requests.map fun request => .posted request.1 request.2))⟩
  | job {state : State n} {i : Fin n} {before after : List Job} {job stepped : Job} {cluster : Cluster}
      (phase : state.phases i = .waiting (before ++ job :: after)) (step : JobStep (calls i) state.cluster job cluster stepped) :
      Step path calls state ⟨cluster, Function.update state.phases i (.waiting (before ++ stepped :: after))⟩
  | finish {state : State n} {i : Fin n} {replies : List (Int × Word)} (phase : state.phases i = .waiting (replies.map .answered)) :
      Step path calls state
        ⟨state.cluster, Function.update state.phases i (.returned (ClientOps.collectSizes (replies.map some)))⟩
  | collapse {state : State n} (host : Nat) (key : Str) (count : Nat) :
      Step path calls state
        ⟨state.cluster.setDb host ((state.cluster.mdb host).collapse .default deployment.ndebug key count), state.phases⟩

/-- All calls have been made and none has sent a message yet. -/
def State.initial (n : Nat) (cluster : Cluster) : State n := ⟨cluster, fun _ => .called⟩

end GekkoFwd.ConcurrentWrite
