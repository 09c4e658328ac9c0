import GekkoFwd.Lib.TaskScript
import GekkoFwd.Basic

/-! The control flow of `rpc_srv_write` and `rpc_srv_read` (`daemon/handler/srv_data.cpp`)
with their tasks, eventuals and the bulk buffer. Chunk `i` of the host has task `i` and
eventual `i`. A task is done when it has set its eventual: it touches neither the buffer
nor the eventual after that. -/

namespace GekkoFwd

/-- What a task of a handler uses. -/
inductive DataResource where
  | bulkBuffer
  | eventual (task : Nat)
  deriving DecidableEq

abbrev DataScript := List (TaskScript.Op DataResource)

/-- What the calls of the handler and its tasks come to. `taskFreeJoins` says whether
`ABT_task_free` blocks until the task has ended. -/
structure DataOutcomes where
  getInput : Bool
  bulkCreate : Bool
  bulkAccess : Bool
  pull : Nat → Bool
  taskCreate : Nat → Bool
  eventualWait : Nat → Bool
  ioSize : Nat → Int
  push : Nat → Bool
  respond : Bool
  taskFreeJoins : Bool

namespace DataHandler
variable (outcomes : DataOutcomes)

def uses (task : Nat) : DataResource → Prop
  | .bulkBuffer => True
  | .eventual other => other = task

def taskFree (task : Nat) : DataScript := if outcomes.taskFreeJoins then [.await task] else []

/-- `cancel_abt_io`, when the first `created` tasks exist. Calls on a task that was never
created fail. -/
def cancelAbtIo (created maxIdx : Nat) : DataScript :=
  ((List.range maxIdx).flatMap fun task => if task < created then .cancel task :: taskFree outcomes task else []) ++
    (List.range maxIdx).map fun task => .release (.eventual task)

/-- `cleanup_respond` with a buffer, which stays when there is no response. -/
def cleanupRespond : DataScript := if outcomes.respond then [.release .bulkBuffer] else []

/-- The loop over the chunks of this host: the data is pulled, then a task is created.
`rest` is what follows the loop. -/
def chunkLoop (pull : Nat → Bool) (rest : DataScript) : (left curr : Nat) → DataScript
  | 0, _ => rest
  | left + 1, curr =>
    if !pull curr then cancelAbtIo outcomes curr curr ++ cleanupRespond outcomes
    else if !outcomes.taskCreate curr then cancelAbtIo outcomes curr (curr + 1) ++ cleanupRespond outcomes
    else .spawn curr :: chunkLoop pull rest left (curr + 1)

/-- The loop over the eventuals, which ends at the first one that cannot be waited for or
whose value is not `good`. -/
def waitLoop (good : Nat → Bool) (handled : Nat → DataScript) : (left curr : Nat) → DataScript
  | 0, _ => []
  | left + 1, curr =>
    if !outcomes.eventualWait curr then []
    else .await curr :: if good curr then handled curr ++ waitLoop good handled left (curr + 1) else []

/-- The first part of both handlers. The buffer exists once the bulk handle does. -/
def setup (rest : DataScript) : DataScript :=
  if !outcomes.getInput then []
  else if !outcomes.bulkCreate then []
  else if !outcomes.bulkAccess then cleanupRespond outcomes
  else rest

/-- A task that failed ends the loop of `rpc_srv_write`. -/
def written (task : Nat) : Bool := decide (0 ≤ outcomes.ioSize task)

/-- In `rpc_srv_read` a missing chunk is passed over, and data has to be pushed. -/
def readBack (task : Nat) : Bool :=
  outcomes.ioSize task = -Errno.enoent || outcomes.ioSize task = 0 || decide (0 < outcomes.ioSize task) && outcomes.push task

def rpcSrvWrite (chunkN : Nat) : DataScript :=
  setup outcomes (chunkLoop outcomes outcomes.pull
    (waitLoop outcomes (written outcomes) (fun task => [.release (.eventual task)]) chunkN 0 ++ (cleanupRespond outcomes ++
      (List.range chunkN).flatMap fun task => .await task :: taskFree outcomes task)) chunkN 0)

def rpcSrvRead (chunkN : Nat) : DataScript :=
  setup outcomes (chunkLoop outcomes (fun _ => true)
    (waitLoop outcomes (readBack outcomes) (fun _ => []) chunkN 0 ++ (cleanupRespond outcomes ++
      cancelAbtIo outcomes chunkN chunkN)) chunkN 0)

inductive Rpc where
  | write
  | read
  deriving DecidableEq

def script : Rpc → Nat → DataScript
  | .write => rpcSrvWrite outcomes
  | .read => rpcSrvRead outcomes

end DataHandler
end GekkoFwd
