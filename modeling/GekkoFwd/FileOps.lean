import GekkoFwd.ClientOps
import GekkoFwd.OpenFileMap

/-! The operations on open files (`client/gkfs_functions.cpp`) and what the hooks make
of their results (`client/hooks.cpp`), once a path is known to be internal or a
descriptor to be in the file map. -/

namespace GekkoFwd

inductive FileType where
  | regular
  | directory
  deriving DecidableEq

/-- `OpenFile`, with the entries of an `OpenDir`. -/
structure OpenFile where
  path : Str
  type : FileType
  append : Bool
  pos : Word
  entries : List (Str × Bool)

/-- What `gkfs_open` adds to the file map for a regular file. -/
def OpenFile.opened (path : Str) : OpenFile := ⟨path, .regular, false, 0, []⟩

inductive Whence where
  | seekSet
  | seekCur
  | seekEnd
  /-- `SEEK_DATA`, `SEEK_HOLE` and unknown values. -/
  | other
  deriving DecidableEq

/-- What a function returns, and the value it has left in `errno` if it set it. -/
structure Outcome where
  ret : Int
  errno : Option Int

def Outcome.ofResult {α : Type} (value : α → Int) : SysResult α → Outcome
  | .ok result => ⟨value result, none⟩
  | .error errno => ⟨-1, some errno⟩

namespace FileOps
variable {deployment : Deployment} (client : Client deployment)

def gkfsLseek (file : OpenFile) (offset : Word) : Whence → Prog (Outcome × OpenFile)
  | .seekSet => return (⟨offset.toInt, none⟩, { file with pos := offset })
  | .seekCur => return (⟨(file.pos + offset).toInt, none⟩, { file with pos := file.pos + offset })
  | .seekEnd => do
    let (err, fileSize) ← ClientOps.forwardGetMetadentrySize client file.path
    if err < 0 then
      -- Negative numbers are explicitly for error codes
      return (⟨-1, some err⟩, file)
    if offset.slt 0 && fileSize.slt (-offset) then return (⟨-1, some Errno.einval⟩, file)
    return (⟨(fileSize + offset).toInt, none⟩, { file with pos := fileSize + offset })
  | .other => return (⟨-1, some Errno.einval⟩, file)

def gkfsPwrite (file : OpenFile) (buf : List Byte) (offset : Word) : Prog (SysResult Word) :=
  if file.type = .regular then ClientOps.gkfsPwrite client file.path file.append buf offset
  else return .error Errno.eisdir

def gkfsPread (file : OpenFile) (buf : List Byte) (offset : Word) : Prog (SysResult Word × List Byte) :=
  if file.type = .regular then ClientOps.gkfsPread client file.path buf offset
  else return (.error Errno.eisdir, buf)

/-- The seek before a write that appends. -/
def seekToAppend (file : OpenFile) : Prog OpenFile :=
  if file.append then do
    let (_, file) ← gkfsLseek client file 0 .seekEnd
    return file
  else return file

/-- The position was read before it is moved to the end. -/
def gkfsWrite (file : OpenFile) (buf : List Byte) : Prog (SysResult Word × OpenFile) := do
  let pos := file.pos
  let file ← seekToAppend client file
  let ret ← gkfsPwrite client file buf pos
  return (ret, match ret with
    | .ok written => if (0 : Word).slt written then { file with pos := pos + .ofNat 64 buf.length } else file
    | .error _ => file)

def gkfsRead (file : OpenFile) (buf : List Byte) : Prog (SysResult Word × List Byte × OpenFile) := do
  let (ret, filled) ← gkfsPread client file buf file.pos
  return (ret, filled, match ret with
    | .ok read => if (0 : Word).slt read then { file with pos := file.pos + read } else file
    | .error _ => file)

/-- The loop of `gkfs_pwritev` and `gkfs_preadv`: one buffer after the other until a
transfer fails or comes up short. The bytes moved, the `errno` of a failed transfer and
the buffers. -/
def vectored (transfer : List Byte → Word → Prog (SysResult Word × List Byte)) :
    List (List Byte) → (pos moved : Word) → Prog (Word × Option Int × List (List Byte))
  | [], _, moved => return (moved, none, [])
  | buf :: iov, pos, moved =>
    if buf.length = 0 then do
      let (moved, errno, rest) ← vectored transfer iov pos moved
      return (moved, errno, buf :: rest)
    else do
      match ← transfer buf pos with
      | (.error errno, filled) => return (moved, some errno, filled :: iov)
      | (.ok ret, filled) =>
        -- a sum of sizes that is -1 would end the loop as well
        if ret = -1 then return (moved, none, filled :: iov)
        else if ret.toNat < buf.length then return (moved + ret, none, filled :: iov)
        else do
          let (moved, errno, rest) ← vectored transfer iov (pos + ret) (moved + ret)
          return (moved, errno, filled :: rest)

/-- Nothing moved is returned as a failure, whatever the reason. -/
def vectoredOutcome (moved : Word) (errno : Option Int) : Outcome := ⟨if moved = 0 then -1 else moved.toInt, errno⟩

def gkfsPwritev (file : OpenFile) (iov : List (List Byte)) (offset : Word) : Prog Outcome := do
  let (moved, errno, _) ← vectored (fun buf pos => do return (← gkfsPwrite client file buf pos, buf)) iov offset 0
  return vectoredOutcome moved errno

def gkfsPreadv (file : OpenFile) (iov : List (List Byte)) (offset : Word) : Prog (Outcome × List (List Byte)) := do
  let (moved, errno, filled) ← vectored (gkfsPread client file) iov offset 0
  return (vectoredOutcome moved errno, filled)

/-- The end of `gkfs_writev` and `gkfs_readv`. -/
def advance (deployment : Deployment) (file : OpenFile) (outcome : Outcome) : Prog (Outcome × OpenFile) := do
  ClientOps.assertClient deployment (decide (outcome.ret ≠ 0))
  if outcome.ret < 0 then return ({ outcome with ret := -1 }, file)
  else return (outcome, { file with pos := file.pos + .ofInt 64 outcome.ret })

def gkfsWritev (file : OpenFile) (iov : List (List Byte)) : Prog (Outcome × OpenFile) := do
  let outcome ← gkfsPwritev client file iov file.pos
  advance deployment file outcome

def gkfsReadv (file : OpenFile) (iov : List (List Byte)) : Prog (Outcome × OpenFile × List (List Byte)) := do
  let (outcome, filled) ← gkfsPreadv client file iov file.pos
  let (outcome, file) ← advance deployment file outcome
  return (outcome, file, filled)

/-- The loop of `gkfs_getdents`: the bytes written and the entries that fit. -/
def fillDirents (totalSize : Str → Nat) (count : Nat) : List (Str × Bool) → (written : Nat) → Nat × List (Str × Bool)
  | [], written => (written, [])
  | entry :: entries, written =>
    if count - written < totalSize entry.1 then (written, [])
    else
      let (total, listed) := fillDirents totalSize count entries (written + totalSize entry.1)
      (total, entry :: listed)

/-- What the two calls return and the entries they list. Their records in the caller's buffer
are in `DirRecords`. -/
def getdentsEntriesWith (totalSize : Str → Nat) (file : OpenFile) (count : Nat) : Outcome × OpenFile × List (Str × Bool) :=
  if file.type ≠ .directory then (⟨-1, some Errno.ebadf⟩, file, [])
  else if file.entries.length ≤ file.pos.toNat then (⟨0, none⟩, file, [])
  else
    let (written, listed) := fillDirents totalSize count (file.entries.drop file.pos.toNat) 0
    if written = 0 then (⟨-1, some Errno.einval⟩, file, [])
    else (⟨written, none⟩, { file with pos := file.pos + .ofNat 64 listed.length }, listed)

/-- `ALIGN` to the next multiple of eight. -/
def align (size : Nat) : Nat := (size + 7) / 8 * 8

/-- `offsetof(struct linux_dirent, d_name)` is 18. -/
def getdentsEntries : OpenFile → Nat → Outcome × OpenFile × List (Str × Bool) :=
  getdentsEntriesWith fun name => align (18 + name.length + 3)

/-- `offsetof(struct linux_dirent64, d_name)` is 19. -/
def getdents64Entries : OpenFile → Nat → Outcome × OpenFile × List (Str × Bool) :=
  getdentsEntriesWith fun name => align (19 + name.length + 1)

/-- `errno` is only looked at when the metadata is missing. -/
def gkfsAccess (path : Str) : Prog (SysResult Unit) := do
  match ← ClientOps.getMetadata client path true with
  | .error _ => return .error Errno.enoent
  | .ok _ => return .ok ()

end FileOps

/-- The hooks with a `gkfs_*` function behind them. Those for the same function that
differ in how they find the path are one. -/
inductive HookCall where
  /-- `newfd` is the number that the file map hands out. -/
  | openat (path : Str) (mode : Mode) (flags : ClientOps.OpenFlags) (newfd : Nat)
  | mkdirat (path : Str) (mode : Mode)
  | stat (path : Str)
  | access (path : Str)
  | unlinkat (path : Str) (removeDir : Bool)
  | truncate (path : Str) (length : Word)
  | read (file : OpenFile) (buf : List Byte)
  | pread (file : OpenFile) (buf : List Byte) (pos : Word)
  | readv (file : OpenFile) (iov : List (List Byte))
  | preadv (file : OpenFile) (iov : List (List Byte)) (pos : Word)
  | write (file : OpenFile) (buf : List Byte)
  | pwrite (file : OpenFile) (buf : List Byte) (pos : Word)
  | writev (file : OpenFile) (iov : List (List Byte))
  | pwritev (file : OpenFile) (iov : List (List Byte)) (pos : Word)
  | lseek (file : OpenFile) (offset : Word) (whence : Whence)
  | getdents (file : OpenFile) (count : Nat)
  | getdents64 (file : OpenFile) (count : Nat)
  | dup (map : OpenFileMap OpenFile) (oldfd : Int)
  | dup2 (map : OpenFileMap OpenFile) (oldfd newfd : Int)

namespace HookCall
open FileOps
variable {deployment : Deployment} (client : Client deployment)

/-- The call of the `gkfs_*` function. -/
def operation : HookCall → Prog Outcome
  | .openat path mode flags newfd => do return .ofResult (fun _ => newfd) (← ClientOps.gkfsOpen client path mode flags)
  | .mkdirat path mode => do return .ofResult (fun _ => 0) (← ClientOps.mkdir client path mode)
  | .stat path => do return .ofResult (fun _ => 0) (← ClientOps.getMetadata client path true)
  | .access path => do return .ofResult (fun _ => 0) (← gkfsAccess client path)
  | .unlinkat path removeDir => do
    return .ofResult (fun _ => 0) (← if removeDir then ClientOps.gkfsRmdir client path else ClientOps.gkfsRemove client path)
  | .truncate path length => do return .ofResult (fun _ => 0) (← ClientOps.gkfsTruncate client path length)
  | .read file buf => do return .ofResult BitVec.toInt (← gkfsRead client file buf).1
  | .pread file buf pos => do return .ofResult BitVec.toInt (← gkfsPread client file buf pos).1
  | .readv file iov => do return (← gkfsReadv client file iov).1
  | .preadv file iov pos => do return (← gkfsPreadv client file iov pos).1
  | .write file buf => do return .ofResult BitVec.toInt (← gkfsWrite client file buf).1
  | .pwrite file buf pos => do return .ofResult BitVec.toInt (← gkfsPwrite client file buf pos)
  | .writev file iov => do return (← gkfsWritev client file iov).1
  | .pwritev file iov pos => gkfsPwritev client file iov pos
  | .lseek file offset whence => do return (← gkfsLseek client file offset whence).1
  | .getdents file count => return (getdentsEntries file count).1
  | .getdents64 file count => return (getdents64Entries file count).1
  | .dup map oldfd => (map.dup oldfd).elim .abort fun answered => return .ofResult (fun fd => fd) answered.1
  | .dup2 map oldfd newfd => return .ofResult (fun fd => fd) (map.dup2 oldfd newfd).1

/-- `with_errno`, which takes an `int`. -/
def withErrno (errno : Int) (ret : Int) : Int :=
  let ret := (BitVec.ofInt 32 ret).toInt
  if ret < 0 then -errno else ret

/-- What the hook returns when `stale` was in `errno` before. `hook_lseek` does without
`with_errno`, since its result is wider. -/
def result (stale : Int) (call : HookCall) (outcome : Outcome) : Int :=
  let errno := outcome.errno.getD stale
  match call with
  | .lseek .. => if outcome.ret < 0 then -errno else outcome.ret
  | _ => withErrno errno outcome.ret

end HookCall
end GekkoFwd
