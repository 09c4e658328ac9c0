import GekkoFwd.Lib.FdTable
import GekkoFwd.Basic

/-! The descriptors that the library opens for itself (`client/preload_context.cpp`).
They are moved to the upper end of the table, where a bitset has a set bit for every
free place. -/

namespace GekkoFwd

/-- `MAX_OPEN_FDS` and `MAX_INTERNAL_FDS`, which are fixed when the library is built. -/
structure FdLimits where
  maxOpenFds : Nat
  maxInternalFds : Nat
  fits : maxInternalFds ≤ maxOpenFds

def FdLimits.minInternalFd (limits : FdLimits) : Int := limits.maxOpenFds - limits.maxInternalFds

/-- The default of the build on a system with 1024 descriptors. -/
def FdLimits.usual : FdLimits := ⟨1024, 256, by decide⟩

structure InternalFds where
  internalFds : Nat → Bool
  internalFdsMustRelocate : Bool

namespace InternalFds
variable (limits : FdLimits)

/-- All places are free, and descriptors are to be relocated. -/
def initial : InternalFds := ⟨fun _ => true, true⟩

/-- `test`, `set` and `reset` of a bitset take a `size_t` and check it. -/
def position (fd : Int) : Except Exn Nat :=
  let pos := fd - limits.minInternalFd
  if 0 ≤ pos ∧ pos < limits.maxInternalFds then .ok pos.toNat else .error .outOfRange

def isInternalFd (fds : InternalFds) (fd : Int) : Except Exn Bool :=
  if fd < limits.minInternalFd then .ok false
  else do
    let pos ← position limits fd
    return !fds.internalFds pos

def assign (fds : InternalFds) (pos : Nat) (free : Bool) : InternalFds :=
  { fds with internalFds := Function.update fds.internalFds pos free }

/-- `_Find_first`. -/
def findFirst (fds : InternalFds) : Option Nat := (List.range limits.maxInternalFds).find? fds.internalFds

def unregisterInternalFd (ndebug : Bool) (fds : InternalFds) (fd : Int) : Except Exn InternalFds := do
  assertThat ndebug (decide (limits.minInternalFd ≤ fd))
  let pos ← position limits fd
  return fds.assign pos true

/-- The number under which the descriptor goes on, with both tables. -/
def registerInternalFd (ndebug : Bool) {κ : Type} (fds : InternalFds) (kernel : FdTable κ) (fd : Int) :
    Except Exn (Int × InternalFds × FdTable κ) := do
  assertThat ndebug (decide (0 ≤ fd))
  if !fds.internalFdsMustRelocate then
    assertThat ndebug (decide (limits.minInternalFd ≤ fd))
    let pos ← position limits fd
    return (fd, fds.assign pos false, kernel)
  else
    match fds.findFirst limits with
    | none => throw .runtimeError
    | some pos =>
      let fds := fds.assign pos false
      -- `dup3` refuses equal numbers, and its result is only asserted
      let moved := if fd = pos + limits.minInternalFd then (.error FdTable.einval, kernel)
        else kernel.dup2 fd (pos + limits.minInternalFd)
      match moved with
      | (.error errno, kernel) => do
        assertThat ndebug false
        return (-errno, fds, (kernel.close fd).2)
      | (.ok ifd, kernel) => return (ifd, fds, (kernel.close fd).2)

end InternalFds
end GekkoFwd
