import Mathlib.Data.List.Dedup
import GekkoFwd.Rpc

/-! The client's file operations (`client/gkfs_functions.cpp`) and the requests they
send (`client/rpc/forward_metadata.cpp` and `forward_data.cpp`). A failed assertion
or an exception that nobody catches ends the process. Entries that are links do not
arise, since the hooks refuse to make them: the code that follows them aborts here. -/

namespace GekkoFwd

abbrev Prog := RpcProgram.Program Request

/-- A result, or -1 with this value in `errno`. -/
abbrev SysResult (α : Type) := Except Int α

namespace ClientOps
open RpcProgram.Program (call abort)

variable {deployment : Deployment} (client : Client deployment)

/-- The client's own assertions. -/
def assertClient (deployment : Deployment) (condition : Bool) : Prog Unit :=
  if deployment.ndebug || condition then return () else abort

def forwardCreate (path : Str) (mode : Mode) : Prog (SysResult Unit) := do
  match ← call (client.locateFileMetadata path) (.create path mode) with
  | none => return .error Errno.ebusy
  | some err => return if err ≠ 0 then .error err else .ok ()

def forwardStat (path : Str) : Prog (SysResult Str) := do
  match ← call (client.locateFileMetadata path) (.stat path) with
  | none => return .error Errno.ebusy
  | some (err, dbVal) => return if err ≠ 0 then .error err else .ok dbVal

/-- `Metadata{attr}` throws out of the caller when the text is malformed. -/
def parseAttr (deployment : Deployment) (attr : Str) : Prog Metadata :=
  match Metadata.parse .default deployment.ndebug attr with
  | .ok md => return md
  | .error _ => abort

def getMetadata (path : Str) (followLinks : Bool) : Prog (SysResult Metadata) := do
  match ← forwardStat client path with
  | .error errno => return .error errno
  | .ok attr =>
    let md ← parseAttr deployment attr
    if followLinks && Mode.isLnk md.mode then abort
    return .ok md

/-- `CREATE_CHECK_PARENTS` is on by default. -/
def checkParentDir (path : Str) : Prog (SysResult Unit) := do
  match ← getMetadata client (Path.dirname path) false with
  | .error errno => return .error errno
  | .ok md => return if Mode.isDir md.mode then .ok () else .error Errno.enotdir

/-- The switch on the file type. -/
def nodeMode (mode : Mode) : SysResult Mode :=
  let type := mode &&& Mode.ifmt
  if type = 0 then .ok (mode ||| Mode.ifreg)
  else if type = Mode.ifreg ∨ type = Mode.ifdir then .ok mode
  else if type = Mode.ifchr ∨ type = Mode.ifblk ∨ type = Mode.ififo ∨ type = Mode.ifsock then .error Errno.enotsup
  else .error Errno.einval

def gkfsCreate (path : Str) (mode : Mode) : Prog (SysResult Unit) := do
  match nodeMode mode with
  | .error errno => return .error errno
  | .ok mode =>
    match ← checkParentDir client path with
    | .error errno => return .error errno
    | .ok () => forwardCreate client path mode

/-- `mkdir` on an internal path, from `hook_mkdirat`. -/
def mkdir (path : Str) (mode : Mode) : Prog (SysResult Unit) := gkfsCreate client path (mode ||| Mode.ifdir)

/-- What a batch of answers means to `forward_remove`: the last error, if any. -/
def lastError : List (Option Int) → SysResult Unit
  | [] => .ok ()
  | reply :: replies =>
    match lastError replies, reply with
    | .error errno, _ => .error errno
    | .ok (), none => .error Errno.ebusy
    | .ok (), some err => if err ≠ 0 then .error err else .ok ()

/-- The hosts that get a remove request, in the order it is sent to them. -/
def removeTargets (path : Str) (removeMetadentryOnly : Bool) (size : Word) : List Nat :=
  if removeMetadentryOnly then [client.locateFileMetadata path]
  -- `size` is signed here, and a quotient below the number of hosts makes the file small
  else if (BitVec.ofInt 64 (size.toInt.tdiv chunksize)).toNat < deployment.hosts then
    client.locateFileMetadata path ::
      (List.range ((BitVec.ofInt 64 (size.toInt.tdiv chunksize)).toNat + 1)).map (client.locateData path)
  else List.range deployment.hosts

def forwardRemove (path : Str) (removeMetadentryOnly : Bool) (size : Word) : Prog (SysResult Unit) :=
  .post ((removeTargets client path removeMetadentryOnly size).map fun host => (host, Request.remove path))
    fun replies => return lastError replies

def gkfsRemove (path : Str) : Prog (SysResult Unit) := do
  match ← getMetadata client path false with
  | .error errno => return .error errno
  | .ok md =>
    let hasData := Mode.isReg md.mode && md.size != 0
    forwardRemove client path (!hasData) md.size

/-- `gkfs::config::rpc::dirents_buff_size`. -/
def direntsBuffSize : Nat := 8 * 1024 * 1024

/-- `std::string(ptr)`. What follows the pushed characters is not initialised, and a
read that runs there is taken for a crash. -/
def cString (ptr : Str) : Option Str :=
  if Dirents.nul ∈ ptr then some (ptr.takeWhile fun c => c != Dirents.nul) else none

/-- The loop over the `remaining` entries in the buffer of one host; `boolPtr` and
`namesPtr` are counted from `base`. -/
def recvDirents (ndebug : Bool) (perHostBuffSize : Nat) (base : Str) : (remaining boolPtr namesPtr : Nat) → Option (List (Str × Bool))
  | 0, _, _ => some []
  | remaining + 1, boolPtr, namesPtr => do
    guard (ndebug || (decide (0 < namesPtr) && decide (namesPtr < perHostBuffSize)))
    let isDir ← base[boolPtr]?
    let name ← cString (base.drop namesPtr)
    let rest ← recvDirents ndebug perHostBuffSize base remaining (boolPtr + 1) (namesPtr + name.length + 1)
    return (name, isDir != Dirents.nul) :: rest

/-- The entries in one host's answer; an error or a missing answer is thrown. -/
def recvReply (ndebug : Bool) (perHostBuffSize : Nat) : Option (Int × Nat × Str) → Option (List (Str × Bool))
  | none => none
  | some (err, direntsSize, base) =>
    if err ≠ 0 then none else recvDirents ndebug perHostBuffSize base direntsSize 0 direntsSize

/-- What the `OpenDir` gets from all hosts. -/
def forwardGetDirents (path : Str) : Prog (List (Str × Bool)) :=
  let targets := client.distributor.locateDirectoryMetadata
  let perHostBuffSize := direntsBuffSize / targets.length
  .post (targets.map fun host => (host, Request.getDirents path perHostBuffSize)) fun replies =>
    (replies.mapM (recvReply deployment.ndebug perHostBuffSize)).elim abort fun received => return received.flatten

def gkfsRmdir (path : Str) : Prog (SysResult Unit) := do
  match ← getMetadata client path false with
  | .error _ => return .error Errno.enoent
  | .ok md =>
    if !Mode.isDir md.mode then return .error Errno.enotdir
    let entries ← forwardGetDirents client path
    if entries.length ≠ 0 then return .error Errno.enotempty
    forwardRemove client path true 0

/-- The entries of the `OpenDir` that the file map gets. -/
def gkfsOpendir (path : Str) : Prog (SysResult (List (Str × Bool))) := do
  match ← getMetadata client path false with
  | .error errno => return .error errno
  | .ok md =>
    if !Mode.isDir md.mode then return .error Errno.enotdir
    let entries ← forwardGetDirents client path
    return .ok entries

def forwardDecrSize (path : Str) (length : Word) : Prog (SysResult Unit) := do
  match ← call (client.locateFileMetadata path) (.decrSize path length) with
  | none => return .error Errno.ebusy
  | some err => return if err ≠ 0 then .error err else .ok ()

end ClientOps

namespace TruncateHosts

/-- Locals of the loop in `forward_truncate`; `chunkId` is an `unsigned int`. -/
structure State where
  chunkId : BitVec 32
  hosts : List Nat

def chunkStart (newSize : Word) : BitVec 32 := .ofNat 32 (ChunkCalc.chnkIdForOffset newSize chunkWord).toNat

def chunkEnd (currentSize newSize : Word) : BitVec 32 :=
  .ofNat 32 (ChunkCalc.chnkIdForOffset (currentSize - newSize - 1) chunkWord).toNat

def guard (currentSize newSize : Word) (state : State) : Bool := decide (state.chunkId ≤ chunkEnd currentSize newSize)

def body (locate : Nat → Nat) (state : State) : State :=
  ⟨state.chunkId + 1, state.hosts.insert (locate state.chunkId.toNat)⟩

/-- The hosts that are contacted, `none` when the loop never ends. -/
def collect (locate : Nat → Nat) (currentSize newSize : Word) : Option (List Nat) :=
  (WhileLoop.run (guard currentSize newSize) (body locate) ⟨chunkStart newSize, []⟩).map State.hosts

end TruncateHosts

namespace ClientOps
open RpcProgram.Program (call abort)

variable {deployment : Deployment} (client : Client deployment)

def forwardTruncate (path : Str) (currentSize newSize : Word) : Prog (SysResult Unit) := do
  assertClient deployment (decide (newSize < currentSize))
  (TruncateHosts.collect (client.locateData path) currentSize newSize).elim abort fun hosts =>
    .post (hosts.map fun host => (host, Request.truncData path newSize)) fun replies =>
      return if replies.all fun reply => reply == some 0 then .ok () else .error Errno.eio

/-- `gkfs_truncate(path, old_size, new_size)`. -/
def gkfsTruncateTo (path : Str) (oldSize newSize : Word) : Prog (SysResult Unit) := do
  assertClient deployment (!newSize.slt 0)
  assertClient deployment (newSize.sle oldSize)
  if newSize = oldSize then return .ok ()
  match ← forwardDecrSize client path newSize with
  | .error errno => return .error errno
  | .ok () => forwardTruncate client path oldSize newSize

def gkfsTruncate (path : Str) (length : Word) : Prog (SysResult Unit) := do
  if length.slt 0 then return .error Errno.einval
  match ← getMetadata client path true with
  | .error errno => return .error errno
  | .ok md =>
    if md.size < length then return .error Errno.einval
    gkfsTruncateTo client path md.size length

/-- The flags of `open` that are looked at. -/
structure OpenFlags where
  oPath : Bool := false
  oAppend : Bool := false
  oCreat : Bool := false
  oDirectory : Bool := false
  oExcl : Bool := false
  oNofollow : Bool := false
  oTrunc : Bool := false
  oRdwr : Bool := false
  oWronly : Bool := false
  deriving DecidableEq

/-- `gkfs_open` without the descriptor that it adds to the file map. -/
def gkfsOpen (path : Str) (mode : Mode) (flags : OpenFlags) : Prog (SysResult Unit) := do
  if flags.oPath then return .error Errno.enotsup
  if flags.oAppend then return .error Errno.enotsup
  match ← getMetadata client path false with
  | .error errno =>
    if errno ≠ Errno.enoent then return .error errno
    if !flags.oCreat then return .error Errno.enoent
    if flags.oDirectory then return .error Errno.enotsup
    gkfsCreate client path (mode ||| Mode.ifreg)
  | .ok md =>
    if flags.oExcl then return .error Errno.eexist
    if Mode.isLnk md.mode then abort
    if Mode.isDir md.mode then
      let opened ← gkfsOpendir client path
      return opened.map fun _ => ()
    else
      assertClient deployment (Mode.isReg md.mode)
      if flags.oTrunc && (flags.oRdwr || flags.oWronly) then gkfsTruncateTo client path md.size 0
      else return .ok ()

/-- The answer is the new size as the writer sees it, `size + offset`. -/
def forwardUpdateMetadentrySize (path : Str) (size offset : Word) (appendFlag : Bool) : Prog (SysResult Word) := do
  match ← call (client.locateFileMetadata path) (.updateMetadentrySize path size offset appendFlag) with
  | none => return .error Errno.ebusy
  | some (err, retSize) => return if err ≠ 0 then .error err else .ok retSize

/-- The error of the answer and the size, both returned to the caller. -/
def forwardGetMetadentrySize (path : Str) : Prog (Int × Word) := do
  match ← call (client.locateFileMetadata path) (.getMetadentrySize path) with
  | none => return (Errno.eunknown, 0)
  | some (err, retSize) => return (err, retSize)

/-- The answers to the requests of one transfer: sizes add up, the last error counts. -/
def collectSizes : List (Option (Int × Word)) → SysResult Word
  | [] => .ok 0
  | reply :: replies =>
    match collectSizes replies, reply with
    | .error errno, _ => .error errno
    | .ok _, none => .error Errno.eio
    | .ok total, some (err, ioSize) => if err ≠ 0 then .error err else .ok (ioSize + total)

def forwardWrite (path : Str) (buf : List Byte) (appendFlag : Bool) (inOffset writeSize updatedMetadentrySize : Word) :
    Prog (SysResult Word) := do
  assertClient deployment (decide (0 < writeSize))
  (Transfer.inputs (.forwardWrite appendFlag inOffset writeSize updatedMetadentrySize) client path).elim abort fun requests =>
    .post (requests.map fun request => (request.1, Request.writeData request.2 buf)) fun replies =>
      return collectSizes replies

/-- `gkfs_pwrite` on a descriptor of a regular file. -/
def gkfsPwrite (path : Str) (appendFlag : Bool) (buf : List Byte) (offset : Word) : Prog (SysResult Word) := do
  match ← forwardUpdateMetadentrySize client path (.ofNat 64 buf.length) offset appendFlag with
  | .error errno => return .error errno
  | .ok updatedSize => forwardWrite client path buf appendFlag offset (.ofNat 64 buf.length) updatedSize

/-- The client's buffer after the daemons' pushes. -/
def receive (buf : List Byte) (replies : List (Option (Int × Word × List (Nat × List Byte)))) : List Byte :=
  ByteFile.pwriteAll buf (replies.flatMap fun reply => (reply.map fun answer => answer.2.2).getD [])

def forwardRead (path : Str) (buf : List Byte) (offset readSize : Word) : Prog (SysResult Word × List Byte) :=
  (Transfer.inputs (.forwardRead offset readSize) client path).elim abort fun requests =>
    .post (requests.map fun request => (request.1, Request.readData request.2)) fun replies =>
      return (collectSizes (replies.map fun reply => reply.map fun answer => (answer.1, answer.2.1)), receive buf replies)

/-- `gkfs_pread` on a descriptor of a regular file; `buf` is the caller's buffer. -/
def gkfsPread (path : Str) (buf : List Byte) (offset : Word) : Prog (SysResult Word × List Byte) :=
  forwardRead client path buf offset (.ofNat 64 buf.length)

end ClientOps
end GekkoFwd
