import GekkoFwd.PathResolver

/-! The working directory of a process (`client/path.cpp`, `hook_chdir` and `hook_fchdir` in
`client/hooks.cpp`). -/

namespace GekkoFwd.WorkingDir
open PathResolver

/-- What the client knows, its variable in the environment, and the kernel's working
directory. -/
structure CwdState where
  context : PathContext
  env : Option Str
  sysCwd : List Str

/-- `init_cwd`; `getcwd` returns the path of the kernel's working directory. -/
def initCwd (context : PathContext) (env : Option Str) (sysCwd : List Str) : CwdState :=
  ⟨{ context with cwd := env.getD (Path.join sysCwd) }, env, sysCwd⟩

/-- `set_sys_cwd`, `none` when the kernel refuses. -/
def setSysCwd (system : System) (path : Str) : Option (List Str) :=
  match system.tree.walk .follow system.links [] (parts path) with
  | .target (.existing place) => if system.tree.lookup place = some .directory then some place else none
  | _ => none

def setCwd (system : System) (process : CwdState) (path : Str) (internal : Bool) : Option CwdState :=
  if internal then do
    let place ← setSysCwd system process.context.mountdir
    return ⟨{ process.context with cwd := path }, some path, place⟩
  else do
    let place ← setSysCwd system path
    return ⟨{ process.context with cwd := path }, none, place⟩

/-- The path of an internal directory for the application; only that of the root has a slash
at its end, which is taken off. -/
def mountedPath (mountdir path : Str) : Str :=
  if Path.hasTrailingSlash (mountdir ++ path) then (mountdir ++ path).dropLast else mountdir ++ path

section hooks
variable {deployment : Deployment} (client : Client deployment) (system : System) (errno : Int) (process : CwdState)

/-- The kernel refuses with `errno`. -/
def changed (after : Option CwdState) : SysResult CwdState := after.elim (.error errno) .ok

def hookChdir (path : Str) : Prog (SysResult CwdState) :=
  match process.context.relativizePath system path true with
  | some (.internal relPath) => do
    match ← ClientOps.getMetadata client relPath false with
    | .error _ => return .error Errno.enoent
    | .ok md =>
      if !Mode.isDir md.mode then return .error Errno.enotdir
      return changed errno (setCwd system process (mountedPath process.context.mountdir relPath) true)
  | some (.external resolved) => return changed errno (setCwd system process resolved false)
  | _ => .abort

/-- `directory` is what the descriptor is open for in the kernel. For a file of GekkoFS the
hook asks a null pointer for the path that it logs. -/
def hookFchdir (fd : Int) (directory : Option (List Str)) : Prog (SysResult CwdState) :=
  match process.context.ofm.get fd with
  | some file =>
    if file.type ≠ .directory then .abort
    else return changed errno (setCwd system process (mountedPath process.context.mountdir file.path) true)
  | none =>
    match directory with
    | some place =>
      -- The exception of a refused `fchdir` is not caught.
      if system.tree.lookup place = some .directory then
        return .ok ⟨{ process.context with cwd := Path.join place }, none, place⟩
      else .abort
    | none => .abort

inductive Call where
  | chdir (path : Str)
  | fchdir (fd : Int) (directory : Option (List Str))

def perform : Call → Prog (SysResult CwdState)
  | .chdir path => hookChdir client system errno process path
  | .fchdir fd directory => hookFchdir system errno process fd directory

end hooks
end GekkoFwd.WorkingDir
