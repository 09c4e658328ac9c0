import Mathlib.Data.List.AList
import GekkoFwd.Lib.WhileLoop
import GekkoFwd.Basic

/-! The client's table of open files (`client/open_file_map.cpp`), over any kind of
file. Descriptors are values of `int`; the methods run under the map's lock. -/

namespace GekkoFwd

structure OpenFileMap (φ : Type) where
  files : AList fun _ : Int => φ
  fdIdx : Int
  fdValidationNeeded : Bool

namespace OpenFileMap
variable {φ : Type}

def intMax : Int := 2147483647

def empty : OpenFileMap φ := ⟨∅, 10000, false⟩

def get (map : OpenFileMap φ) (fd : Int) : Option φ := map.files.lookup fd

def exist (map : OpenFileMap φ) (fd : Int) : Bool := (map.get fd).isSome

/-- The index that is handed out, and the map after it. -/
def generateFdIdx (map : OpenFileMap φ) : Int × OpenFileMap φ :=
  if map.fdIdx = intMax then (100000, { map with fdIdx := 100001, fdValidationNeeded := true })
  else (map.fdIdx, { map with fdIdx := map.fdIdx + 1 })

/-- Nothing when the search never ends. -/
def safeGenerateFdIdx (map : OpenFileMap φ) : Option (Int × OpenFileMap φ) :=
  let generated := map.generateFdIdx
  if generated.2.fdValidationNeeded then
    WhileLoop.run (fun state => state.2.exist state.1) (fun state => state.2.generateFdIdx) generated
  else some generated

/-- `files_.insert`, which keeps a binding that is there. -/
def insert (map : OpenFileMap φ) (fd : Int) (file : φ) : OpenFileMap φ :=
  if map.exist fd then map else { map with files := map.files.insert fd file }

def add (map : OpenFileMap φ) (file : φ) : Option (Int × OpenFileMap φ) :=
  map.safeGenerateFdIdx.map fun generated => (generated.1, generated.2.insert generated.1 file)

def remove (map : OpenFileMap φ) (fd : Int) : Bool × OpenFileMap φ :=
  if map.exist fd then
    let files := map.files.erase fd
    (true, { map with files, fdValidationNeeded := map.fdValidationNeeded && !files.keys.isEmpty })
  else (false, map)

def dup (map : OpenFileMap φ) (oldfd : Int) : Option (Except Int Int × OpenFileMap φ) :=
  match map.get oldfd with
  | none => some (.error Errno.ebadf, map)
  | some file => (map.add file).map fun added => (.ok added.1, added.2)

def dup2 (map : OpenFileMap φ) (oldfd newfd : Int) : Except Int Int × OpenFileMap φ :=
  match map.get oldfd with
  | none => (.error Errno.ebadf, map)
  | some file =>
    if oldfd = newfd then (.ok newfd, map)
    else
      let map := if map.exist newfd then (map.remove newfd).2 else map
      let ahead := map.fdIdx < newfd ∧ newfd ≠ 0 ∧ newfd ≠ 1 ∧ newfd ≠ 2
      let map := { map with fdValidationNeeded := map.fdValidationNeeded || decide ahead }
      (.ok newfd, map.insert newfd file)

end OpenFileMap
end GekkoFwd
