import GekkoFwd.FileOps

/-! The records that `gkfs_getdents` and `gkfs_getdents64` write into the caller's buffer
(`client/gkfs_functions.cpp`), and the inode numbers of `stat` (`client/preload_util.cpp`).
`FileOps.getdentsEntriesWith` has the same loop on the level of the entries. -/

namespace GekkoFwd.DirRecords
open CellMemory

/-- The two kernel structures. `d_ino`, `d_off` and `d_reclen` are the same in both. -/
inductive Layout where
  | linuxDirent
  | linuxDirent64
  deriving DecidableEq

namespace Layout

/-- `offsetof(..., d_name)`. -/
def nameOffset : Layout → Nat
  | .linuxDirent => 18
  | .linuxDirent64 => 19

def totalSize (layout : Layout) (name : Str) : Nat :=
  match layout with
  | .linuxDirent => FileOps.align (layout.nameOffset + name.length + 3)
  | .linuxDirent64 => FileOps.align (layout.nameOffset + name.length + 1)

/-- The last byte of a `linux_dirent` has the type, in a `linux_dirent64` it is the field
`d_type`. -/
def typeOffset (layout : Layout) (totalSize : Nat) : Nat :=
  match layout with
  | .linuxDirent => totalSize - 1
  | .linuxDirent64 => 18

end Layout

def dtReg : Nat := 8
def dtDir : Nat := 4

/-- The bytes of a number in memory. -/
def number (width value : Nat) : Str := (digits width value).map Char.ofNat

/-- The string whose hash becomes `d_ino`. -/
def inodePath (openDir : OpenFile) (name : Str) : Str := openDir.path ++ '/' :: name

/-- What one round of the loop writes; `next` is the position behind the entry. -/
def putRecord (layout : Layout) (inode : Word) (entry : Str × Bool) (next : Word) (address : Nat) (memory : Nat → Char) : Nat → Char :=
  let totalSize := layout.totalSize entry.1
  let memory := store memory address (number 8 inode.toNat)
  let memory := store memory (address + 16) (number 2 totalSize)
  let memory := store memory (address + layout.typeOffset totalSize) [Char.ofNat (if entry.2 then dtDir else dtReg)]
  -- strcpy
  let memory := store memory (address + layout.nameOffset) ((entry.1.takeWhile fun c => c != Dirents.nul) ++ [Dirents.nul])
  store memory (address + 8) (number 8 next.toNat)

/-- Locals of the loop and the memory; the caller's buffer begins at address 0. -/
structure Scan where
  pos : Word
  written : BitVec 32
  memory : Nat → Char

/-- `none` when `at` throws; `getdent` takes an `unsigned int`. -/
def Scan.loop (layout : Layout) (hash : Str → Word) (openDir : OpenFile) (count : BitVec 32) : (fuel : Nat) → Scan → Option Scan
  | 0, scan => some scan
  | fuel + 1, scan => do
    if openDir.entries.length ≤ scan.pos.toNat then return scan
    let entry ← openDir.entries[scan.pos.toNat % 2 ^ 32]?
    let totalSize := layout.totalSize entry.1
    if (count - scan.written).toNat < totalSize then return scan
    loop layout hash openDir count fuel {
      pos := scan.pos + 1
      written := scan.written + .ofNat 32 totalSize
      memory := putRecord layout (hash (inodePath openDir entry.1)) entry (scan.pos + 1) scan.written.toNat scan.memory }

/-- The body of the two calls. What was written is returned as an `int`. -/
def getdentsWith (layout : Layout) (hash : Str → Word) (openDir : OpenFile) (count : BitVec 32) (memory : Nat → Char) :
    Option (Outcome × OpenFile × (Nat → Char)) :=
  if openDir.type ≠ .directory then some (⟨-1, some Errno.ebadf⟩, openDir, memory)
  else if openDir.entries.length ≤ openDir.pos.toNat then some (⟨0, none⟩, openDir, memory)
  else (Scan.loop layout hash openDir count openDir.entries.length ⟨openDir.pos, 0, memory⟩).map fun scan =>
    if scan.written = 0 then (⟨-1, some Errno.einval⟩, openDir, scan.memory)
    else (⟨scan.written.toInt, none⟩, { openDir with pos := scan.pos }, scan.memory)

def gkfsGetdents : (Str → Word) → OpenFile → BitVec 32 → (Nat → Char) → Option (Outcome × OpenFile × (Nat → Char)) :=
  getdentsWith .linuxDirent

def gkfsGetdents64 : (Str → Word) → OpenFile → BitVec 32 → (Nat → Char) → Option (Outcome × OpenFile × (Nat → Char)) :=
  getdentsWith .linuxDirent64

/-- The call that fills a buffer with these records. -/
def Layout.getdents : Layout → (Str → Word) → OpenFile → BitVec 32 → (Nat → Char) → Option (Outcome × OpenFile × (Nat → Char))
  | .linuxDirent => gkfsGetdents
  | .linuxDirent64 => gkfsGetdents64

theorem Layout.getdents_eq_getdentsWith (layout : Layout) : layout.getdents = getdentsWith layout := by
  cases layout <;> rfl

end GekkoFwd.DirRecords

namespace GekkoFwd

/-- `FsConfig`, as far as `metadata_to_stat` reads it. -/
structure FsConfig where
  mountdir : Str
  uid : BitVec 32
  gid : BitVec 32
  atimeState : Bool
  mtimeState : Bool
  ctimeState : Bool
  linkCntState : Bool
  blocksState : Bool

/-- `struct stat`; the nanoseconds of the times are zero. -/
structure Stat where
  dev : Word
  ino : Word
  mode : Mode
  nlink : Word
  uid : BitVec 32
  gid : BitVec 32
  rdev : Word
  size : Word
  blksize : Word
  blocks : Word
  atime : Word
  mtime : Word
  ctime : Word

/-- `struct statx`, as far as `gkfs_statx` fills it. -/
structure Statx where
  mask : BitVec 32
  blksize : BitVec 32
  attributes : Word
  nlink : BitVec 32
  uid : BitVec 32
  gid : BitVec 32
  mode : BitVec 16
  ino : Word
  size : Word
  blocks : Word
  attributesMask : Word
  atime : Word
  mtime : Word
  ctime : Word
  btime : Word

namespace FileOps

def metadataToStat (config : FsConfig) (hash : Str → Word) (path : Str) (md : Metadata) : Stat where
  dev := 0
  ino := hash path
  mode := md.mode
  nlink := if config.linkCntState then md.linkCount else 1
  uid := config.uid
  gid := config.gid
  rdev := 0
  size := if Mode.isLnk md.mode then .ofNat 64 (md.targetPath.length + config.mountdir.length) else md.size
  blksize := .ofNat 64 chunksize
  blocks := if config.blocksState then md.blocks else 0
  atime := if config.atimeState then md.atime else 0
  mtime := if config.mtimeState then md.mtime else 0
  ctime := if config.ctimeState then md.ctime else 0

variable {deployment : Deployment} (client : Client deployment) (config : FsConfig) (hash : Str → Word)

def gkfsStat (path : Str) (followLinks : Bool) : Prog (SysResult Stat) := do
  match ← ClientOps.getMetadata client path followLinks with
  | .error errno => return .error errno
  | .ok md => return .ok (metadataToStat config hash path md)

def gkfsStatx (path : Str) (followLinks : Bool) : Prog (SysResult Statx) := do
  match ← ClientOps.getMetadata client path followLinks with
  | .error errno => return .error errno
  | .ok md =>
    let tmp := metadataToStat config hash path md
    return .ok {
      mask := 0
      blksize := tmp.blksize.setWidth 32
      attributes := 0
      nlink := tmp.nlink.setWidth 32
      uid := tmp.uid
      gid := tmp.gid
      mode := tmp.mode.setWidth 16
      ino := tmp.ino
      size := tmp.size
      blocks := tmp.blocks
      attributesMask := 0
      atime := tmp.atime
      mtime := tmp.mtime
      ctime := tmp.ctime
      btime := tmp.atime }

/-- The hooks that look up a resolved path or an open file. -/
inductive Lookup where
  | stat (path : Str)
  | lstat (path : Str)
  | fstat (file : OpenFile)
  | fstatat (path : Str)
  | statx (path : Str)

/-- The path that they pass on. -/
def Lookup.path : Lookup → Str
  | .stat path | .lstat path | .fstatat path | .statx path => path
  | .fstat file => file.path

/-- The inode number that the caller gets. -/
def Lookup.ino : Lookup → Prog (SysResult Word)
  | .stat path => do return (← gkfsStat client config hash path true).map Stat.ino
  | .lstat path => do return (← gkfsStat client config hash path true).map Stat.ino
  | .fstat file => do return (← gkfsStat client config hash file.path true).map Stat.ino
  | .fstatat path => do return (← gkfsStat client config hash path true).map Stat.ino
  | .statx path => do return (← gkfsStatx client config hash path true).map Statx.ino

end FileOps
end GekkoFwd
