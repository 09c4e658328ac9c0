import GekkoFwd.FileOps
import GekkoFwd.Path
import GekkoFwd.Lib.NamingTree

/-! How the client finds out whether a path belongs to GekkoFS (`client/path.cpp`,
`client/preload_context.cpp`) and which path a hook hands on to the kernel when it does
not (`client/hooks.cpp`). -/

namespace GekkoFwd.PathResolver
open Lib.NamingTree

/-- The next component from a separator on, and the text that starts where it ends. -/
def nextComponent (path : Str) : Str × Str :=
  let body := path.dropWhile (· == '/')
  (body.takeWhile (· != '/'), body.dropWhile (· != '/'))

def tokensFrom : (fuel : Nat) → Str → List (Str × Str)
  | 0, _ => []
  | fuel + 1, path =>
    let (name, rest) := nextComponent path
    if name = [] then [] else (name, rest) :: tokensFrom fuel rest

/-- The components that the loop of `resolve` goes through, each with the rest of the path. -/
def tokens (path : Str) : List (Str × Str) := tokensFrom path.length path

def part (name : Str) : Component Str :=
  if name = ['.'] then .here else if name = ['.', '.'] then .up else .down name

/-- A path as the kernel walks it. -/
def parts (path : Str) : List (Component Str) :=
  (tokens path).map (fun token => part token.1) ++ if Path.hasTrailingSlash path then [.slash] else []

/-- The text between separators, without an empty text at the end. -/
def pieces (text : Str) : List Str :=
  let all := text.splitOn '/'
  if all.getLast? = some [] then all.dropLast else all

def splitPath (path : Str) : List Str := pieces (if Path.isAbsolute path then path.drop 1 else path)

/-- Locals of `match_components`, which goes through the path by positions. -/
structure MatchScan where
  matched : BitVec 32
  processed : BitVec 32
  /-- `end`, the separator that was processed last. -/
  last : Nat
  deriving DecidableEq

/-- `path.find(separator, start)`, or the end of the path. -/
def findSeparator (path : Str) (start : Nat) : Nat := start + ((path.drop start).takeWhile (· != '/')).length

/-- One round of the loop, `none` when `at` is out of range. -/
def MatchScan.round (path : Str) (components : List Str) (scan : MatchScan) : Option MatchScan := do
  let start := scan.last + 1
  -- Find next component
  let last := findSeparator path start
  let matched ←
    if scan.matched = scan.processed then
      components[scan.matched.toNat]?.map fun component =>
        if (path.drop start).take (last - start) = component then scan.matched + 1 else scan.matched
    else some scan.matched
  return ⟨matched, scan.processed + 1, last⟩

/-- `while (++end < path.size())`. -/
def MatchScan.loop (path : Str) (components : List Str) : (fuel : Nat) → MatchScan → Option MatchScan
  | 0, scan => some scan
  | fuel + 1, scan =>
    if scan.last + 1 < path.length then scan.round path components >>= MatchScan.loop path components fuel else some scan

/-- What the function returns, and what it leaves in `path_components`. Every round takes a
character, so that as many rounds as the path has characters are enough. -/
def matchComponentsAt (path : Str) (components : List Str) : Option (BitVec 32 × BitVec 32) :=
  (MatchScan.loop path components path.length ⟨0, 0, 0⟩).map fun scan => (scan.matched, scan.processed)

/-- The external file system, and how many links a walk of the kernel or the C library
may follow. -/
structure System where
  tree : NameTree Str
  links : Nat

namespace System
variable (system : System)

def lstat (path : Str) : Option (Node Str) :=
  match system.tree.walk .keep system.links [] (parts path) with
  | .target (.existing place) => system.tree.lookup place
  | _ => none

def realpath (path : Str) : Option Str :=
  match system.tree.walk .follow system.links [] (parts path) with
  | .target (.existing place) => some (Path.join place)
  | _ => none

end System

/-- `string::npos`. -/
def npos : Nat := 2 ^ 64 - 1

/-- `find_last_of` for the separator. -/
def findLastSeparator (text : Str) : Nat :=
  if '/' ∈ text then text.length - 1 - (text.reverse.takeWhile (· != '/')).length else npos

/-- `erase` from a position on, `none` when the position is out of range. -/
def eraseFrom (text : Str) (pos : Nat) : Option Str := if pos ≤ text.length then some (text.take pos) else none

/-- Locals of `resolve`. -/
structure Cursor where
  resolved : Str
  matchedComponents : BitVec 32
  resolvedComponents : BitVec 32
  lastSlashPos : Nat
  deriving DecidableEq

/-- The last component is cut off from the resolved path. -/
def Cursor.eraseLast (cursor : Cursor) : Option Cursor :=
  if cursor.resolved = [] then some cursor
  else (eraseFrom cursor.resolved cursor.lastSlashPos).map fun resolved =>
    { cursor with resolved, lastSlashPos := findLastSeparator resolved }

/-- The last component is counted no more. -/
def Cursor.countDown (cursor : Cursor) : Cursor :=
  if 0 < cursor.resolvedComponents then
    { cursor with
      matchedComponents :=
        if cursor.matchedComponents = cursor.resolvedComponents then cursor.matchedComponents - 1 else cursor.matchedComponents
      resolvedComponents := cursor.resolvedComponents - 1 }
  else cursor

/-- The component is `..`. -/
def Cursor.rollback (cursor : Cursor) : Option Cursor := cursor.eraseLast.map Cursor.countDown

/-- What one turn of the loop does: it goes on, or returns `false`. -/
inductive Turn where
  | next (cursor : Cursor)
  | leave (resolved : Str)

section resolve
variable (system : System) (mountdir : Str) (resolveLastLink : Bool)

/-- One turn of the loop, `none` when an exception ends it. -/
def turn (cursor : Cursor) (name rest : Str) : Option Turn :=
  if name = ['.'] then some (.next cursor)
  else if name = ['.', '.'] then cursor.rollback.map .next
  else
    let components := splitPath mountdir
    -- add `/<component>` to the resolved path
    let resolved := cursor.resolved ++ '/' :: name
    let lastSlashPos := cursor.resolved.length
    if cursor.matchedComponents.toNat < components.length then
      -- Outside GekkoFS
      let matched :=
        if cursor.matchedComponents = cursor.resolvedComponents ∧ components[cursor.matchedComponents.toNat]? = some name then
          cursor.matchedComponents + 1
        else cursor.matchedComponents
      match system.lstat resolved with
      | none => some (.leave (resolved ++ rest))
      | some (.link ..) =>
        if !resolveLastLink && rest.isEmpty then some (.next ⟨resolved, matched, cursor.resolvedComponents, lastSlashPos⟩)
        else match system.realpath resolved with
          | none => some (.leave (resolved ++ rest))
          | some target =>
            -- substitute resolved with new link path
            (matchComponentsAt target components).map fun counts => .next ⟨target, counts.1, counts.2, findLastSeparator target⟩
      | some .file =>
        if rest.isEmpty then some (.next ⟨resolved, matched, cursor.resolvedComponents + 1, lastSlashPos⟩)
        else some (.leave (resolved ++ rest))
      | some .directory => some (.next ⟨resolved, matched, cursor.resolvedComponents + 1, lastSlashPos⟩)
    else
      -- Inside GekkoFS
      some (.next ⟨resolved, cursor.matchedComponents + 1, cursor.resolvedComponents + 1, lastSlashPos⟩)

/-- Behind the loop. `erase(1, ...)` throws on an empty text. -/
def conclude (cursor : Cursor) : Option (Bool × Str) :=
  if (splitPath mountdir).length ≤ cursor.matchedComponents.toNat then
    if cursor.resolved = [] then none
    else some (true, cursor.resolved.take 1 ++ cursor.resolved.drop (1 + mountdir.length))
  else some (false, if cursor.resolved = [] then ['/'] else cursor.resolved)

def resolveLoop : List (Str × Str) → Cursor → Option (Bool × Str)
  | [], cursor => conclude mountdir cursor
  | (name, rest) :: behind, cursor => do
    match ← turn system mountdir resolveLastLink cursor name rest with
    | .next cursor => resolveLoop behind cursor
    | .leave resolved => return (false, resolved)

def excludedPaths : List Str := ["sys/".toList, "proc/".toList]

def excluded (path : Str) : Bool := excludedPaths.any fun start => start.isPrefixOf (path.drop 1)

/-- Whether the path lies in GekkoFS, and what it is resolved to. -/
def resolve (path : Str) : Option (Bool × Str) :=
  if excluded path then some (false, path)
  else resolveLoop system mountdir resolveLastLink (tokens path) ⟨[], 0, 0, 0⟩

end resolve

inductive RelativizeStatus where
  | internal (path : Str)
  | external (path : Str)
  | fdUnknown
  | fdNotADir
  deriving DecidableEq

/-- What `PreloadContext` knows when it looks at a path. -/
structure PathContext where
  ndebug : Bool
  mountdir : Str
  cwd : Str
  ofm : OpenFileMap OpenFile

/-- `AT_FDCWD`. -/
def atFdcwd : Int := -100

namespace PathContext
variable (system : System) (context : PathContext)

/-- `none` when the assertion on the prefix fails. -/
def prependPath (rawPath : Str) : Option Str :=
  if !context.ndebug && Path.hasTrailingSlash context.cwd then none else some (context.cwd ++ '/' :: rawPath)

def resolved (resolveLastLink : Bool) (path : Str) : Option RelativizeStatus :=
  (resolve system context.mountdir resolveLastLink path).map fun answer =>
    if answer.1 then .internal answer.2 else .external answer.2

def relativizePath (rawPath : Str) (resolveLastLink : Bool) : Option RelativizeStatus := do
  let path ← if Path.isAbsolute rawPath then some rawPath else context.prependPath rawPath
  context.resolved system resolveLastLink path

def relativizeFdPath (dirfd : Int) (rawPath : Str) (resolveLastLink : Bool) : Option RelativizeStatus :=
  if Path.isAbsolute rawPath then context.resolved system resolveLastLink rawPath
  else if dirfd = atFdcwd then do
    let path ← context.prependPath rawPath
    context.resolved system resolveLastLink path
  else match context.ofm.get dirfd with
    | none => some .fdUnknown
    | some dir =>
      if dir.type ≠ .directory then some .fdNotADir
      else context.resolved system resolveLastLink (context.mountdir ++ dir.path ++ '/' :: rawPath)

end PathContext

/-- The names that hooks resolve, with the flags that decide about a final link. -/
inductive PathCall where
  | openat (noFollow exclusive : Bool)
  | stat
  | statx (noFollow : Bool)
  | lstat
  | fstatat (noFollow : Bool)
  | unlinkat
  | symlinkatNewname
  | access
  | faccessat
  | truncate
  | mkdirat
  | fchmodat
  | chdir
  | readlinkat
  | renameatOldname
  | renameatNewname
  | statfs
  deriving DecidableEq

namespace PathCall

/-- The `resolve_last_link` of the hook. -/
def resolveLastLink : PathCall → Bool
  | .stat => false
  | .unlinkat => false
  | .symlinkatNewname => false
  | .readlinkat => false
  | _ => true

/-- What the kernel takes the last component for in this call. A slash after a directory is
told from none where a file is made or moved to the name. -/
def rule : PathCall → LastLink
  | .openat noFollow exclusive => if exclusive then .entry true else if noFollow then .keep else .follow
  | .statx noFollow => if noFollow then .keep else .follow
  | .fstatat noFollow => if noFollow then .keep else .follow
  | .lstat => .keep
  | .readlinkat => .keep
  | .unlinkat => .entry false
  | .symlinkatNewname => .entry false
  | .mkdirat => .entry false
  | .renameatOldname => .entry false
  | .renameatNewname => .entry true
  | .stat => .follow
  | .access => .follow
  | .faccessat => .follow
  | .truncate => .follow
  | .fchmodat => .follow
  | .chdir => .follow
  | .statfs => .follow

/-- The hooks without a directory descriptor. -/
def usesCwd : PathCall → Bool
  | .stat => true
  | .lstat => true
  | .access => true
  | .truncate => true
  | .chdir => true
  | .statfs => true
  | _ => false

def status (call : PathCall) (system : System) (context : PathContext) (dirfd : Int) (rawPath : Str) :
    Option RelativizeStatus :=
  if call.usesCwd then context.relativizePath system rawPath call.resolveLastLink
  else context.relativizeFdPath system dirfd rawPath call.resolveLastLink

/-- The path for the kernel, `none` when the hook answers on its own. -/
def passed (rawPath : Str) : RelativizeStatus → Option Str
  | .fdUnknown => some rawPath
  | .external resolved => some resolved
  | .fdNotADir => none
  | .internal _ => none

/-- The text that the hook hands to the kernel in place of the path. -/
def handed (call : PathCall) (system : System) (context : PathContext) (dirfd : Int) (rawPath : Str) : Option (Option Str) :=
  (call.status system context dirfd rawPath).map (passed rawPath)

end PathCall

end GekkoFwd.PathResolver
