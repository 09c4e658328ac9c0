import GekkoFwd.InternalFds
import GekkoFwd.OpenFileMap

/-! The hooks that make, duplicate and close descriptors (`client/hooks.cpp`), on the
open file map and the kernel's table together. A number that the map knows is never
passed to the kernel. -/

namespace GekkoFwd

structure Process (φ κ : Type) where
  fileMap : OpenFileMap φ
  kernel : FdTable κ
  internal : InternalFds
  errno : Int

namespace FdHooks
variable {φ κ : Type} (limits : FdLimits) (process : Process φ κ)

def withErrno (ret : Int) : Int := if ret < 0 then -process.errno else ret

/-- A call that the kernel answers. -/
def noIntercept (answered : Except Int Int × FdTable κ) : Int × Process φ κ :=
  match answered with
  | (.ok ret, kernel) => (ret, { process with kernel })
  | (.error errno, kernel) => (-errno, { process with kernel })

/-- `hook_openat` on an internal path, once `gkfs_open` has the file. -/
def hookOpenatInternal (file : φ) : Option (Int × Process φ κ) :=
  (process.fileMap.add file).map fun added => (withErrno process added.1, { process with fileMap := added.2 })

/-- `hook_openat` on any other path, where the kernel has the file. -/
def hookOpenatExternal (file : κ) : Int × Process φ κ := noIntercept process (process.kernel.install file)

/-- Nothing when an exception leaves the hook. -/
def hookClose (fd : Int) : Option (Int × Process φ κ) :=
  if process.fileMap.exist fd then some (0, { process with fileMap := (process.fileMap.remove fd).2 })
  else
    match process.internal.isInternalFd limits fd with
    | .error _ => none
    | .ok true => some (0, process)
    | .ok false => some (noIntercept process (process.kernel.close fd))

def hookDup (fd : Int) : Option (Int × Process φ κ) :=
  if process.fileMap.exist fd then
    (process.fileMap.dup fd).map fun answered =>
      match answered with
      | (.ok newfd, fileMap) => (withErrno process newfd, { process with fileMap })
      | (.error errno, fileMap) => (-errno, { process with fileMap, errno })
  else some (noIntercept process (process.kernel.dup fd))

def hookDup2 (oldfd newfd : Int) : Int × Process φ κ :=
  if process.fileMap.exist oldfd then
    match process.fileMap.dup2 oldfd newfd with
    | (.ok newfd, fileMap) => (withErrno process newfd, { process with fileMap })
    | (.error errno, fileMap) => (-errno, { process with fileMap, errno })
  else noIntercept process (process.kernel.dup2 oldfd newfd)

end FdHooks
end GekkoFwd
