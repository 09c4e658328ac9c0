import GekkoFwd.Proofs.DirectoryListing

/-! What the daemons and the clients are together meant to be: one file system, a tree of
names with the bytes of each file, on which a call takes effect at once. Hosts, chunks,
databases and messages do not occur in it. -/

namespace GekkoFwd.Proofs.FileSystemSpec
open ClientOps ClientSpec DirectoryListing

/-- The mode of a creation, which has no file type yet. -/
structure Permissions where
  bits : Mode
  plain : bits &&& Mode.ifmt = 0

/-- What a path names. -/
inductive Node where
  | file (permissions : Permissions) (content : List Byte)
  | directory (permissions : Permissions)

namespace Node

def mode : Node → Mode
  | file permissions _ => permissions.bits ||| Mode.ifreg
  | directory permissions => permissions.bits ||| Mode.ifdir

def content : Node → List Byte
  | file _ content => content
  | directory _ => []

def isDirectory : Node → Bool
  | file _ _ => false
  | directory _ => true

theorem mode_and_ifmt (node : Node) : node.mode &&& Mode.ifmt = if node.isDirectory then Mode.ifdir else Mode.ifreg := by
  have typed : ∀ (permissions : Permissions) (type : Mode), type &&& Mode.ifmt = type →
      (permissions.bits ||| type) &&& Mode.ifmt = type := by
    intro permissions type known
    rw [BitVec.and_or_distrib_right, permissions.plain, known]
    exact BitVec.zero_or
  cases node with
  | file permissions content => exact typed permissions Mode.ifreg (by decide)
  | directory permissions => exact typed permissions Mode.ifdir (by decide)

theorem isDir_mode (node : Node) : Mode.isDir node.mode = node.isDirectory := by
  rw [Mode.isDir, mode_and_ifmt]
  cases node.isDirectory <;> decide

theorem isReg_mode (node : Node) : Mode.isReg node.mode = !node.isDirectory := by
  rw [Mode.isReg, mode_and_ifmt]
  cases node.isDirectory <;> decide

theorem isLnk_mode (node : Node) : Mode.isLnk node.mode = false := by
  rw [Mode.isLnk, mode_and_ifmt]
  cases node.isDirectory <;> decide

end Node

/-- The permissions that `init_environment` gives the root. -/
def rootPermissions : Permissions := ⟨0o777, by decide⟩

abbrev FileSystem := Str → Option Node

/-- A reply to a call. The order in which a listing comes is not determined, so that the
specification gives the entries in another form than the client. -/
inductive Reply (ε : Type) where
  | done
  | attributes (mode : Mode) (size : Nat)
  | wrote (count : Nat)
  | read (count : Nat) (buf : List Byte)
  | entries (listing : ε)

/-- The calls on a path, or on a descriptor that was opened for it. -/
inductive Call where
  | open (permissions : Permissions) (flags : OpenFlags)
  | mkdir (permissions : Permissions)
  | stat
  | pwrite (data : List Byte) (offset : Nat)
  | pread (buf : List Byte) (offset : Nat)
  | truncate (length : Nat)
  | opendir
  | unlink
  | rmdir

namespace FileSystem

def initial : FileSystem := fun path => if path = ['/'] then some (.directory rootPermissions) else none

/-- The entries of a directory. -/
def child (fs : FileSystem) (dir name : Str) : Option Node :=
  if name ≠ [] ∧ '/' ∉ name then fs (childPath dir name) else none

abbrev Outcome := SysResult (Reply (Str → Option Bool)) × FileSystem

variable (fs : FileSystem) (path : Str)

def create (node : Node) : Outcome :=
  match fs (Path.dirname path) with
  | none => (.error Errno.enoent, fs)
  | some (.file _ _) => (.error Errno.enotdir, fs)
  | some (.directory _) => (.ok .done, Function.update fs path (some node))

def openNode (permissions : Permissions) (flags : OpenFlags) : Outcome :=
  if flags.oPath || flags.oAppend then (.error Errno.enotsup, fs)
  else
    match fs path with
    | none =>
      if !flags.oCreat then (.error Errno.enoent, fs)
      else if flags.oDirectory then (.error Errno.enotsup, fs)
      else fs.create path (.file permissions [])
    | some node =>
      if flags.oExcl then (.error Errno.eexist, fs)
      else
        match node with
        | .directory _ => (.ok .done, fs)
        | .file permissions _ =>
          if flags.oTrunc && (flags.oRdwr || flags.oWronly) then
            (.ok .done, Function.update fs path (some (.file permissions [])))
          else (.ok .done, fs)

open Classical in
noncomputable def rmdir : Outcome :=
  match fs path with
  | none => (.error Errno.enoent, fs)
  | some (.file _ _) => (.error Errno.enotdir, fs)
  | some (.directory _) =>
    if ∃ name, (fs.child path name).isSome then (.error Errno.enotempty, fs)
    else (.ok .done, Function.update fs path none)

/-- The result of a call and the file system after it. -/
noncomputable def perform : Call → Outcome
  | .open permissions flags => fs.openNode path permissions flags
  | .mkdir permissions => fs.create path (.directory permissions)
  | .stat =>
    match fs path with
    | none => (.error Errno.enoent, fs)
    | some node => (.ok (.attributes node.mode node.content.length), fs)
  | .pwrite data offset =>
    match fs path with
    | some (.file permissions content) =>
      (.ok (.wrote data.length), Function.update fs path (some (.file permissions (ByteFile.pwrite content data offset))))
    | _ => (.error Errno.ebadf, fs)
  | .pread buf offset =>
    match fs path with
    | some (.file _ content) =>
      (.ok (.read (min buf.length (content.length - offset)) (ByteFile.fill content offset buf)), fs)
    | _ => (.error Errno.ebadf, fs)
  | .truncate length =>
    match fs path with
    | none => (.error Errno.enoent, fs)
    | some (.directory _) => (.error Errno.eisdir, fs)
    | some (.file permissions content) =>
      -- a file is not extended
      if content.length < length then (.error Errno.einval, fs)
      else (.ok .done, Function.update fs path (some (.file permissions (content.take length))))
  | .opendir =>
    match fs path with
    | none => (.error Errno.enoent, fs)
    | some (.file _ _) => (.error Errno.enotdir, fs)
    | some (.directory _) => (.ok (.entries fun name => (fs.child path name).map Node.isDirectory), fs)
  | .unlink =>
    match fs path with
    | none => (.error Errno.enoent, fs)
    | some (.directory _) => (.error Errno.eisdir, fs)
    | some (.file _ _) => (.ok .done, Function.update fs path none)
  | .rmdir => fs.rmdir path

end FileSystem

/-- A listing that has each entry once, with its type. -/
structure Lists (entries : Str → Option Bool) (listing : List (Str × Bool)) : Prop where
  distinct : (listing.map Prod.fst).Nodup
  exact : ∀ name flag, (name, flag) ∈ listing ↔ entries name = some flag

/-- The client's result is the one that is specified. -/
def Agrees : SysResult (Reply (List (Str × Bool))) → SysResult (Reply (Str → Option Bool)) → Prop
  | .error errno, .error expected => errno = expected
  | .ok .done, .ok .done => True
  | .ok (.attributes mode size), .ok (.attributes mode' size') => mode = mode' ∧ size = size'
  | .ok (.wrote count), .ok (.wrote count') => count = count'
  | .ok (.read count buf), .ok (.read count' buf') => count = count' ∧ buf = buf'
  | .ok (.entries listing), .ok (.entries entries) => Lists entries listing
  | _, _ => False

/-- Names that no two files share a chunk directory under, and that are C strings. -/
structure Plain (path : Str) : Prop where
  canonical : Path.Canonical path
  colonFree : ':' ∉ path
  text : Dirents.nul ∉ path

theorem Plain.isKey {path : Str} (plain : Plain path) : IsKey path :=
  ⟨plain.canonical.isAbsolute, plain.canonical.hasTrailingSlash, plain.text⟩

/-- The entries of a directory fit into a host's part of the buffer for listings. -/
def Fits (deployment : Deployment) (fs : FileSystem) (path : Str) : Prop :=
  ∀ listing, Lists (fun name => (fs.child path name).map Node.isDirectory) listing →
    Dirents.outSize listing ≤ perHostBuffSize deployment

/-- The path without its first slash is the name of one directory in the local file systems. -/
abbrev Nameable (path : Str) : Prop := path.length ≤ LocalFs.nameMax + 1

/-- When the client's functions keep what is specified. -/
def Call.Admissible (deployment : Deployment) (fs : FileSystem) (path : Str) : Call → Prop
  | .open _ flags =>
    match fs path with
    | none => True
    | some (.directory _) => Fits deployment fs path
    | some (.file _ content) =>
      flags.oTrunc && (flags.oRdwr || flags.oWronly) → content.length ≤ (2 ^ 32 - 1) * chunksize
  -- an existing path would be taken for created
  | .mkdir _ => fs path = none
  | .stat => True
  -- no hole is made, and chunk numbers have 32 bits
  | .pwrite data offset => Nameable path ∧ ∃ permissions content, fs path = some (.file permissions content) ∧ data ≠ [] ∧
      offset ≤ content.length ∧ offset + data.length ≤ 2 ^ 32 * chunksize
  | .pread buf offset => Nameable path ∧ ∃ permissions content, fs path = some (.file permissions content) ∧ buf ≠ [] ∧
      offset + buf.length ≤ 2 ^ 32 * chunksize
  | .truncate length =>
    match fs path with
    | none => length < 2 ^ 63
    | some (.directory _) => False
    -- a cut inside of a file of several chunks fails on the hosts without the chunk
    | some (.file _ content) => length < 2 ^ 63 ∧
        (content.length ≤ length ∨ content.length ≤ chunksize ∨ length = 0 ∧ content.length ≤ (2 ^ 32 - 1) * chunksize)
  | .opendir => ∀ permissions, fs path = some (.directory permissions) → Fits deployment fs path
  -- a directory would be removed with what lies below it still there
  | .unlink => ∀ permissions, fs path ≠ some (.directory permissions)
  | .rmdir => path ≠ ['/'] ∧ ∀ permissions, fs path = some (.directory permissions) → Fits deployment fs path

end GekkoFwd.Proofs.FileSystemSpec
