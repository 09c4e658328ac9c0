import GekkoFwd.Lib.CellMemory
import GekkoFwd.Lib.RpcProgram
import GekkoFwd.ChunkSplit
import GekkoFwd.ChunkStorage
import GekkoFwd.MetadataDb

/-! The daemons' request handlers (`daemon/handler/srv_metadata.cpp` and
`srv_data.cpp`) on the state of all hosts. The network delivers every message and
every bulk transfer. An exception that leaves a handler ends the daemon, and no request
of that host is answered from then on. -/

namespace GekkoFwd

/-- The requests of the client, each with the fields of its answer. -/
inductive Request : Type → Type where
  | create (path : Str) (mode : Mode) : Request Int
  | stat (path : Str) : Request (Int × Str)
  | decrSize (path : Str) (length : Word) : Request Int
  | remove (path : Str) : Request Int
  | updateMetadentrySize (path : Str) (size offset : Word) (append : Bool) : Request (Int × Word)
  | getMetadentrySize (path : Str) : Request (Int × Word)
  | getDirents (path : Str) (bulkSize : Nat) : Request (Int × Nat × Str)
  | truncData (path : Str) (length : Word) : Request Int
  | writeData (input : DataIn) (buf : List Byte) : Request (Int × Word)
  | readData (input : DataIn) : Request (Int × Word × List (Nat × List Byte))

/-- The databases of the hosts, the chunk stores of the backends, and the hosts whose
daemon has ended. -/
structure Cluster where
  mdb : Nat → MetadataDb
  storage : Nat → Storage
  down : Nat → Bool

/-- What the I/O pool and the local file system of a host do during one request: the
order in which tasks run, and how the local calls on each chunk come out. -/
structure IoPool where
  order : List SrvSplit.Task → List SrvSplit.Task
  order_perm : ∀ tasks, (order tasks).Perm tasks
  pwrite : Word → ChunkStorage.PwriteOutcome
  pread : Word → ChunkStorage.PreadSchedule

instance : Inhabited IoPool := ⟨⟨id, fun _ => List.Perm.refl _, fun _ => .stored chunksize, fun _ _ => .ok chunksize⟩⟩

/-! The buffer of `rpc_srv_get_dirents`: a `bool` for each entry, then the names. -/

namespace Dirents

def nul : Char := '\x00'

def boolChar (isDir : Bool) : Char := if isDir then '\x01' else nul

def outSize (entries : List (Str × Bool)) : Nat := (entries.map fun entry => entry.1.length).sum + entries.length * 2

/-- What `strcpy` leaves in the zeroed room of a name. -/
def strcpy (name : Str) : Str := (name.takeWhile fun c => c != nul).rightpad (name.length + 1) nul

def outBuff (entries : List (Str × Bool)) : Str :=
  (entries.map fun entry => boolChar entry.2) ++ entries.flatMap fun entry => strcpy entry.1

/-- The loop that serialises the entries into memory. -/
def fillBuff : List (Str × Bool) → (boolPtr namesPtr : Nat) → (memory : Nat → Char) → Nat → Char
  | [], _, _, memory => memory
  | entry :: entries, boolPtr, namesPtr, memory =>
    let memory := CellMemory.store memory boolPtr [boolChar entry.2]
    -- strcpy
    let memory := CellMemory.store memory namesPtr ((entry.1.takeWhile fun c => c != nul) ++ [nul])
    fillBuff entries (boolPtr + 1) (namesPtr + (entry.1.length + 1)) memory

/-- What the loop leaves in the zeroed buffer that is pushed. -/
def filledBuff (entries : List (Str × Bool)) : Str :=
  CellMemory.window (fillBuff entries 0 entries.length fun _ => nul) 0 (outSize entries)

/-- How the push of the buffer ends. One that fails may have left anything in the client's. -/
inductive Push where
  | done
  | failed (left : Str)
  deriving DecidableEq

end Dirents

namespace Daemon

/-- `Metadata(mode)` comes before the `try` block, and `put` fails by its assertions
only. -/
def rpcSrvCreate (ndebug : Bool) (path : Str) (mode : Mode) (db : MetadataDb) : Option Int × MetadataDb :=
  match assertThat ndebug (Mode.isDir mode || Mode.isReg mode) with
  | .error _ => (none, db)
  | .ok () =>
    match db.put ndebug path ((Metadata.ofMode mode).serialize .default) with
    | .error _ => (none, db)
    | .ok created => (some 0, created)

def rpcSrvStat (ndebug : Bool) (path : Str) (db : MetadataDb) : Option (Int × Str) :=
  match db.get .default ndebug path with
  | .ok value => some (0, value)
  | .error .notFound => some (Errno.enoent, [])
  | .error .assertion => none
  | .error _ => some (Errno.ebusy, [])

def rpcSrvDecrSize (path : Str) (length : Word) (db : MetadataDb) : Option Int × MetadataDb :=
  (some 0, db.decreaseSize path length)

/-- `remove_node`: the entry, then the chunk directory. -/
def rpcSrvRemove (ndebug : Bool) (path : Str) (db : MetadataDb) (storage : Storage) :
    Option Int × MetadataDb × Storage :=
  match ChunkStorage.destroyChunkSpace ndebug path storage with
  | (.ok (), cleared) => (some 0, db.remove path, cleared)
  | (.error _, storage) => (none, db.remove path, storage)

def rpcSrvUpdateMetadentrySize (path : Str) (size offset : Word) (append : Bool) (db : MetadataDb) :
    Option (Int × Word) × MetadataDb :=
  (some (0, size + offset), db.increaseSize path (size + offset) append)

def rpcSrvGetMetadentrySize (ndebug : Bool) (path : Str) (db : MetadataDb) : Option (Int × Word) :=
  match db.get .default ndebug path >>= Metadata.parse .default ndebug with
  | .ok md => some (0, md.size)
  | .error .notFound => some (Errno.enoent, 0)
  | .error .assertion => none
  | .error _ => some (Errno.ebusy, 0)

/-- Nothing in this handler catches an exception. The answer has the number of
entries and what was pushed into the client's buffer. -/
def rpcSrvGetDirents (ndebug : Bool) (path : Str) (bulkSize : Nat) (db : MetadataDb) : Option (Int × Nat × Str) :=
  match db.getDirents .default ndebug path with
  | .error _ => none
  | .ok entries =>
    if entries.isEmpty then some (0, 0, [])
    else if bulkSize < Dirents.outSize entries then some (Errno.enobufs, entries.length, [])
    else some (0, entries.length, Dirents.outBuff entries)

/-- The handler once it has the entries, with all the places where it may fail: its answer,
and what the client's buffer holds then. -/
def respondDirents (entries : List (Str × Bool)) (bulkCreated : Bool) (push : Dirents.Push) (exposed : Str) :
    (Int × Nat) × Str :=
  if entries.isEmpty then ((0, entries.length), exposed)
  else if exposed.length < Dirents.outSize entries then ((Errno.enobufs, entries.length), exposed)
  else if !bulkCreated then ((Errno.ebusy, entries.length), exposed)
  else
    match push with
    -- `err` is what the declaration `out{}` has put there
    | .failed left => ((0, entries.length), left)
    | .done => ((0, entries.length), Dirents.filledBuff entries ++ exposed.drop (Dirents.outSize entries))

/-- Nothing in this handler catches an exception either. -/
def rpcSrvTruncate (ndebug : Bool) (path : Str) (length : Word) (storage : Storage) : Option Int × Storage :=
  let chunkStart := (ChunkCalc.chnkIdForOffset length chunkWord).toNat % 2 ^ 32
  let leftPad := (ChunkCalc.chnkLpad length chunkWord).toNat
  -- If we trunc in the the middle of a chunk, do not delete that chunk
  let cut := if leftPad ≠ 0 then ChunkStorage.truncateChunk ndebug path chunkStart leftPad storage else (.ok (), storage)
  match cut with
  | (.error _, storage) => (none, storage)
  | (.ok (), storage) =>
    let chunkStart := if leftPad ≠ 0 then (chunkStart + 1) % 2 ^ 32 else chunkStart
    match ChunkStorage.trimChunkSpace ndebug path chunkStart storage with
    | (.error _, storage) => (none, storage)
    | (.ok (), storage) => (some 0, storage)

section Write
open SrvSplit

/-- The daemon's buffer once all pieces have been pulled from the client's. -/
def pullAll (input : DataIn) (buf : List Byte) (tasks : List Task) : List Byte :=
  ByteFile.pwriteAll (List.replicate input.totalChunkSize.toNat 0) (tasks.map fun task =>
    (task.localOffset.toNat, ByteFile.pread buf task.size.toNat task.originOffset.toNat))

def writeFileAbt (ndebug : Bool) (path : Str) (bulk : List Byte) (outcome : ChunkStorage.PwriteOutcome) (task : Task)
    (storage : Storage) : Option Int × Storage :=
  match ChunkStorage.writeChunk ndebug path task.chunkId
      (ByteFile.pread bulk task.size.toNat task.buf.toNat) task.off.toNat outcome storage with
  | (.ok wrote, storage) => (some wrote, storage)
  | (.error (.systemError errno), storage) => (some (-errno.value), storage)
  | (.error _, storage) => (none, storage)

/-- The tasks in the order they run, each with the value of its eventual. -/
def runTasks (ndebug : Bool) (path : Str) (bulk : List Byte) (pool : IoPool) :
    List Task → Storage → Option (List (Task × Int)) × Storage
  | [], storage => (some [], storage)
  | task :: tasks, storage =>
    match writeFileAbt ndebug path bulk (pool.pwrite task.chnkId) task storage with
    | (none, storage) => (none, storage)
    | (some wrote, storage) =>
      match runTasks ndebug path bulk pool tasks storage with
      | (none, storage) => (none, storage)
      | (some results, storage) => (some ((task, wrote) :: results), storage)

/-- The loop that collects the eventuals and stops at the first error. -/
def awaitWrites : List Int → Int × Word
  | [] => (0, 0)
  | wrote :: rest =>
    if wrote < 0 then (-wrote, 0)
    else ((awaitWrites rest).1, .ofInt 64 wrote + (awaitWrites rest).2)

/-- The handler past its chunk loop: the tasks run and their eventuals are awaited. -/
def finishWrite (ndebug : Bool) (pool : IoPool) (input : DataIn) (buf : List Byte) (tasks : List Task)
    (storage : Storage) : Option (Int × Word) × Storage :=
  match runTasks ndebug input.path (pullAll input buf tasks) pool (pool.order tasks) storage with
  | (none, storage) => (none, storage)
  | (some results, storage) => (some (awaitWrites (tasks.map fun task => (results.lookup task).getD 0)), storage)

def rpcSrvWrite (deployment : Deployment) (pool : IoPool) (input : DataIn) (buf : List Byte) (storage : Storage) :
    Option (Int × Word) × Storage :=
  (run deployment.strHash deployment.forwarding input).elim (none, storage) fun final =>
    finishWrite deployment.ndebug pool input buf final.tasks storage

end Write

section Read
open SrvSplit

/-- What a read task puts into its eventual: the bytes read, or the negated error. -/
def readEventual : Except Exn (List Byte) → Option (Except Int (List Byte))
  | .ok bytes => some (.ok bytes)
  | .error (.systemError errno) => some (.error (-errno.value))
  | .error _ => none

def readFileAbt (ndebug : Bool) (path : Str) (schedule : ChunkStorage.PreadSchedule) (task : Task) (storage : Storage) :
    Option (Except Int (List Byte)) :=
  readEventual (ChunkStorage.readChunk ndebug path task.chunkId task.size.toNat task.off.toNat schedule storage)

/-- The daemon's buffer once every task has put its bytes there. -/
def fillBulk (input : DataIn) (results : List (Task × Except Int (List Byte))) : List Byte :=
  ByteFile.pwriteAll (List.replicate input.totalChunkSize.toNat 0) (results.map fun result =>
    (result.1.buf.toNat, match result.2 with
      | .ok bytes => bytes
      | .error _ => []))

/-- The loop that collects the eventuals: a chunk that does not exist is passed over,
what was read is pushed to the client. -/
def awaitReads (bulk : List Byte) : List (Task × Except Int (List Byte)) → Int × Word × List (Nat × List Byte)
  | [] => (0, 0, [])
  | (_, .error read) :: rest =>
    if -read = Errno.enoent then awaitReads bulk rest else (-read, 0, [])
  | (task, .ok bytes) :: rest =>
    if bytes.length = 0 then awaitReads bulk rest
    else
      let push := (task.originOffset.toNat, ByteFile.pread bulk bytes.length task.localOffset.toNat)
      let (err, ioSize, pushes) := awaitReads bulk rest
      (err, .ofNat 64 bytes.length + ioSize, push :: pushes)

def rpcSrvRead (deployment : Deployment) (pool : IoPool) (input : DataIn) (storage : Storage) :
    Option (Int × Word × List (Nat × List Byte)) := do
  let final ← run deployment.strHash deployment.forwarding input
  let results ← final.tasks.mapM fun task =>
    (readFileAbt deployment.ndebug input.path (pool.pread task.chnkId) task storage).map fun read => (task, read)
  return awaitReads (fillBulk input results) results

end Read
end Daemon

namespace Cluster

/-- What `init_environment` leaves when all daemons start on empty directories: each
database has an entry for the root. -/
def fresh : Cluster where
  mdb _ := MetadataDb.merge ∅ ['/'] (.create ((Metadata.ofMode (Mode.ifdir ||| 0o777)).serialize .default))
  storage _ := AList.insert [] .dir ∅
  down _ := false

/-- Every daemon serves. -/
def Up (cluster : Cluster) : Prop := ∀ host, cluster.down host = false

theorem up_fresh : Up .fresh := fun _ => rfl

def setDb (cluster : Cluster) (host : Nat) (db : MetadataDb) : Cluster :=
  { cluster with mdb := Function.update cluster.mdb host db }

def setStore (cluster : Cluster) (backend : Nat) (store : Storage) : Cluster :=
  { cluster with storage := Function.update cluster.storage backend store }

@[simp] theorem mdb_setDb (cluster : Cluster) (host : Nat) (db : MetadataDb) :
    (cluster.setDb host db).mdb = Function.update cluster.mdb host db := rfl

@[simp] theorem storage_setDb (cluster : Cluster) (host : Nat) (db : MetadataDb) :
    (cluster.setDb host db).storage = cluster.storage := rfl

@[simp] theorem mdb_setStore (cluster : Cluster) (backend : Nat) (store : Storage) :
    (cluster.setStore backend store).mdb = cluster.mdb := rfl

@[simp] theorem storage_setStore (cluster : Cluster) (backend : Nat) (store : Storage) :
    (cluster.setStore backend store).storage = Function.update cluster.storage backend store := rfl

@[simp] theorem down_setDb (cluster : Cluster) (host : Nat) (db : MetadataDb) :
    (cluster.setDb host db).down = cluster.down := rfl

@[simp] theorem down_setStore (cluster : Cluster) (backend : Nat) (store : Storage) :
    (cluster.setStore backend store).down = cluster.down := rfl

@[simp] theorem setDb_self (cluster : Cluster) (host : Nat) : cluster.setDb host (cluster.mdb host) = cluster := by
  simp [setDb]

/-- A request in its handler. `pools` says how each host's pool behaves meanwhile. There is
no answer when an exception leaves the handler, or when the handler does not end. -/
def serve (deployment : Deployment) (pools : Nat → IoPool) {β : Type} (host : Nat) (request : Request β)
    (cluster : Cluster) : Option β × Cluster :=
  let db := cluster.mdb host
  let backend := deployment.backend host
  let store := cluster.storage backend
  match request with
  | .create path mode =>
    let answered := Daemon.rpcSrvCreate deployment.ndebug path mode db
    (answered.1, cluster.setDb host answered.2)
  | .stat path => (Daemon.rpcSrvStat deployment.ndebug path db, cluster)
  | .decrSize path length =>
    let answered := Daemon.rpcSrvDecrSize path length db
    (answered.1, cluster.setDb host answered.2)
  | .remove path =>
    let answered := Daemon.rpcSrvRemove deployment.ndebug path db store
    (answered.1, (cluster.setDb host answered.2.1).setStore backend answered.2.2)
  | .updateMetadentrySize path size offset append =>
    let answered := Daemon.rpcSrvUpdateMetadentrySize path size offset append db
    (answered.1, cluster.setDb host answered.2)
  | .getMetadentrySize path => (Daemon.rpcSrvGetMetadentrySize deployment.ndebug path db, cluster)
  | .getDirents path bulkSize => (Daemon.rpcSrvGetDirents deployment.ndebug path bulkSize db, cluster)
  | .truncData path length =>
    let answered := Daemon.rpcSrvTruncate deployment.ndebug path length store
    (answered.1, cluster.setStore backend answered.2)
  | .writeData input buf =>
    let answered := Daemon.rpcSrvWrite deployment (pools host) input buf store
    (answered.1, cluster.setStore backend answered.2)
  | .readData input => (Daemon.rpcSrvRead deployment (pools host) input store, cluster)

/-- The chunk loop of a data handler may go on for ever. The other handlers end. -/
def ends (deployment : Deployment) {β : Type} : Request β → Bool
  | .writeData input _ => (SrvSplit.run deployment.strHash deployment.forwarding input).isSome
  | .readData input => (SrvSplit.run deployment.strHash deployment.forwarding input).isSome
  | _ => true

/-- The daemon of a host ends. -/
def stop (cluster : Cluster) (host : Nat) : Cluster := { cluster with down := Function.update cluster.down host true }

/-- A request at its host. An exception that leaves the handler ends the daemon: nothing on
the stack of its thread catches it. -/
def handle (deployment : Deployment) (pools : Nat → IoPool) {β : Type} (host : Nat) (request : Request β)
    (cluster : Cluster) : Option β × Cluster :=
  if cluster.down host then (none, cluster)
  else
    let served := serve deployment pools host request cluster
    if served.1.isNone && ends deployment request then (none, served.2.stop host) else served

section handle
variable {deployment : Deployment} {pools : Nat → IoPool} {β : Type} {host : Nat} {request : Request β} {cluster : Cluster}

@[simp] theorem down_serve : (serve deployment pools host request cluster).2.down = cluster.down := by
  cases request <;> rfl

@[simp] theorem mdb_stop (cluster : Cluster) (host : Nat) : (cluster.stop host).mdb = cluster.mdb := rfl

@[simp] theorem storage_stop (cluster : Cluster) (host : Nat) : (cluster.stop host).storage = cluster.storage := rfl

@[simp] theorem down_stop (cluster : Cluster) (host : Nat) :
    (cluster.stop host).down = Function.update cluster.down host true := rfl

/-- A daemon that has an answer goes on. -/
theorem handle_of_isSome (up : cluster.down host = false) (answered : (serve deployment pools host request cluster).1.isSome) :
    handle deployment pools host request cluster = serve deployment pools host request cluster := by
  simp [handle, up, Option.isSome_iff_ne_none.mp answered]

theorem handle_of_some (up : cluster.down host = false) {reply : β} {after : Cluster}
    (served : serve deployment pools host request cluster = (some reply, after)) :
    handle deployment pools host request cluster = (some reply, after) :=
  (handle_of_isSome up (by rw [served]; rfl)).trans served

/-- The answer of a daemon that serves, and what its handler leaves in the stores. -/
theorem handle_up (up : cluster.down host = false) :
    (handle deployment pools host request cluster).1 = (serve deployment pools host request cluster).1 ∧
      (handle deployment pools host request cluster).2.mdb = (serve deployment pools host request cluster).2.mdb ∧
      (handle deployment pools host request cluster).2.storage = (serve deployment pools host request cluster).2.storage := by
  rw [handle, up, if_neg Bool.false_ne_true]
  dsimp only
  split
  next silent =>
    rw [Bool.and_eq_true, Option.isNone_iff_eq_none] at silent
    exact ⟨silent.1.symm, rfl, rfl⟩
  next => exact ⟨rfl, rfl, rfl⟩

/-- An answer comes from a handler, and its daemon goes on. -/
theorem handle_of_answered {reply : β} (answered : (handle deployment pools host request cluster).1 = some reply) :
    handle deployment pools host request cluster = serve deployment pools host request cluster := by
  cases down : cluster.down host with
  | true =>
    rw [handle, if_pos down] at answered
    cases answered
  | false => exact handle_of_isSome down (by rw [← (handle_up down).1, answered]; rfl)

theorem serve_of_handle {reply : β} (answered : (handle deployment pools host request cluster).1 = some reply) :
    (serve deployment pools host request cluster).1 = some reply := by
  rw [← handle_of_answered answered, answered]

/-- A daemon that has ended does not come back. -/
theorem down_handle {other : Nat} (down : cluster.down other = true) :
    (handle deployment pools host request cluster).2.down other = true := by
  rw [handle]
  split
  next => exact down
  next =>
    dsimp only
    split
    next =>
      simp only [down_stop, down_serve, Function.update_apply]
      split
      · rfl
      · exact down
    next => rwa [down_serve]

/-- A request does not end the daemon of another host. -/
theorem down_handle_of_ne {other : Nat} (elsewhere : other ≠ host) :
    (handle deployment pools host request cluster).2.down other = cluster.down other := by
  rw [handle]
  split
  next => rfl
  next =>
    dsimp only
    split
    next => rw [down_stop, Function.update_of_ne elsewhere, down_serve]
    next => rw [down_serve]

/-- A request after which all daemons serve has been served. -/
theorem handle_of_up (up : (handle deployment pools host request cluster).2.Up) :
    handle deployment pools host request cluster = serve deployment pools host request cluster := by
  have here : cluster.down host = false := by
    by_contra down
    have still := @down_handle deployment pools β host request cluster host (by simpa using down)
    rw [up host] at still
    cases still
  rw [handle, here, if_neg Bool.false_ne_true] at up ⊢
  dsimp only at up ⊢
  split
  next silent =>
    rw [if_pos silent] at up
    have ended := up host
    simp at ended
  next => rfl

/-- A request ends a daemon when its handler ends without an answer. -/
theorem up_handle_iff (up : cluster.Up) : (handle deployment pools host request cluster).2.Up ↔
    ¬((serve deployment pools host request cluster).1.isNone ∧ ends deployment request) := by
  rw [handle, up host, if_neg Bool.false_ne_true]
  dsimp only
  split
  next silent =>
    refine iff_of_false (fun still => ?_) (fun answered => answered (by simpa using silent))
    have ended := still host
    simp at ended
  next answered => exact iff_of_true (fun other => by rw [down_serve, up other]) (by simpa using answered)

theorem up_of_handle (up : (handle deployment pools host request cluster).2.Up) : cluster.Up := by
  intro other
  by_contra down
  have still := @down_handle deployment pools β host request cluster other (by simpa using down)
  rw [up other] at still
  cases still

end handle

def server (deployment : Deployment) (pools : Nat → IoPool) : RpcProgram.Server Request Cluster :=
  ⟨handle deployment pools⟩

/-- The hosts as they are while no daemon ends. -/
def serving (deployment : Deployment) (pools : Nat → IoPool) : RpcProgram.Server Request Cluster :=
  ⟨serve deployment pools⟩

section Runs
variable {deployment : Deployment} {pools : Nat → IoPool} {α β : Type} {cluster : Cluster}

/-- Daemons that all serve at the end have served all the time. -/
theorem exec_of_up {program : RpcProgram.Program Request α} (up : ((server deployment pools).exec program cluster).2.Up) :
    (server deployment pools).exec program cluster = (serving deployment pools).exec program cluster :=
  RpcProgram.Server.exec_eq_of_good (fun _ _ _ => up_of_handle) (fun _ _ _ => handle_of_up) up

/-- Requests that all get an answer end no daemon. -/
theorem handleAll_of_answered {requests : List (Nat × Request β)} (up : cluster.Up)
    (answered : ∀ reply ∈ ((serving deployment pools).handleAll requests cluster).1, reply.isSome) :
    (server deployment pools).handleAll requests cluster = (serving deployment pools).handleAll requests cluster := by
  induction requests generalizing cluster with
  | nil => rfl
  | cons posted requests ih =>
    obtain ⟨host, request⟩ := posted
    have first : (server deployment pools).handle host request cluster = (serving deployment pools).handle host request cluster :=
      handle_of_isSome (up host) (answered _ List.mem_cons_self)
    have next : ((serving deployment pools).handle host request cluster).2.Up := fun other => by
      rw [serving, down_serve, up other]
    have rest := ih next fun reply member => answered reply (.tail _ member)
    rw [RpcProgram.Server.handleAll, RpcProgram.Server.handleAll, first, rest]

end Runs

end Cluster
end GekkoFwd
