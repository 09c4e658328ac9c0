import Mathlib.Logic.Function.Basic
import GekkoFwd.OpenFileMap

/-! Threads that use the client's table of open files at the same time. A step goes from one
access to what the threads share up to the next one that another thread can come before: a
critical section of `fd_idx_mutex`, an access to the atomic `fd_validation_needed`, or what
happens to the table between two of these while `files_mutex_` is held. -/

namespace GekkoFwd.OpenFileThreads

inductive Call (φ : Type) where
  | get (fd : Int)
  | exist (fd : Int)
  | add (file : φ)
  | remove (fd : Int)
  | dup (oldfd : Int)
  | dup2 (oldfd newfd : Int)
  deriving DecidableEq

inductive Result (φ : Type) where
  | file (found : Option φ)
  | flag (answer : Bool)
  | fd (answer : Except Int Int)
  deriving DecidableEq

/-- A call that needs a number for a file: an `add`, or a `dup` of the given descriptor. A
`dup` holds `files_mutex_` all the time. -/
structure Taker (φ : Type) where
  oldfd : Option Int
  file : φ
  deriving DecidableEq

def Taker.call {φ : Type} (taker : Taker φ) : Call φ := taker.oldfd.elim (.add taker.file) .dup

/-- Where a thread is: what it does next. -/
inductive Phase (φ : Type) where
  | idle
  | called (call : Call φ)
  /-- Before the first `generate_fd_idx` of a `dup`. -/
  | allocating (taker : Taker φ)
  /-- Before the look at `fd_validation_needed`. -/
  | generated (taker : Taker φ) (fd : Int)
  /-- Before `exist` in the loop. -/
  | searching (taker : Taker φ) (fd : Int)
  /-- Before `generate_fd_idx` in the loop. -/
  | again (taker : Taker φ)
  | inserting (taker : Taker φ) (fd : Int)
  /-- In `remove`, before the look at `fd_validation_needed`. A `dup2` that has called it
  has its file and where it comes from still to hand. -/
  | erased (fd : Int) (rest : Option (Int × φ))
  | resetting (fd : Int) (rest : Option (Int × φ))
  /-- In `dup2`, before `get_fd_idx`. -/
  | comparing (oldfd newfd : Int) (file : φ)
  | flagging (oldfd newfd : Int) (file : φ)
  | binding (oldfd newfd : Int) (file : φ)
  deriving DecidableEq

structure State (ι φ : Type) where
  map : OpenFileMap φ
  filesMutex : Option ι
  phases : ι → Phase φ
  /-- What has been returned so far, the latest last. -/
  returned : List (ι × Call φ × Result φ)

inductive Event (ι φ : Type) where
  | call (thread : ι) (call : Call φ)
  | step (thread : ι)

variable {ι φ : Type} [DecidableEq ι]

namespace State

def initial : State ι φ := ⟨.empty, none, fun _ => .idle, []⟩

def go (state : State ι φ) (i : ι) (phase : Phase φ) : State ι φ := { state with phases := Function.update state.phases i phase }

/-- The thread is done with a call and has no lock any more. -/
def finish (state : State ι φ) (i : ι) (call : Call φ) (result : Result φ) : State ι φ :=
  { state.go i .idle with filesMutex := none, returned := state.returned ++ [(i, call, result)] }

/-- `generate_fd_idx` -/
def generate (state : State ι φ) (i : ι) (next : Int → Phase φ) : State ι φ :=
  { state.go i (next state.map.generateFdIdx.1) with map := state.map.generateFdIdx.2 }

def erase (state : State ι φ) (fd : Int) : State ι φ := { state with map := { state.map with files := state.map.files.erase fd } }

def setValidationNeeded (state : State ι φ) (needed : Bool) : State ι φ :=
  { state with map := { state.map with fdValidationNeeded := needed } }

/-- The first critical section of `files_mutex_` in a call. A call that goes on keeps the lock. -/
def enter (state : State ι φ) (i : ι) : Call φ → State ι φ
  | .get fd => state.finish i (.get fd) (.file (state.map.get fd))
  | .exist fd => state.finish i (.exist fd) (.flag (state.map.exist fd))
  | .add file => state.generate i (.generated ⟨none, file⟩)
  | .remove fd =>
    if state.map.exist fd then { (state.erase fd).go i (.erased fd none) with filesMutex := some i }
    else state.finish i (.remove fd) (.flag false)
  | .dup oldfd =>
    match state.map.get oldfd with
    | none => state.finish i (.dup oldfd) (.fd (.error Errno.ebadf))
    | some file => { state.go i (.allocating ⟨some oldfd, file⟩) with filesMutex := some i }
  | .dup2 oldfd newfd =>
    match state.map.get oldfd with
    | none => state.finish i (.dup2 oldfd newfd) (.fd (.error Errno.ebadf))
    | some file =>
      if oldfd = newfd then state.finish i (.dup2 oldfd newfd) (.fd (.ok newfd))
      else if state.map.exist newfd then { (state.erase newfd).go i (.erased newfd (some (oldfd, file))) with filesMutex := some i }
      else { state.go i (.comparing oldfd newfd file) with filesMutex := some i }

/-- Where `remove` is left, for its caller or for the rest of a `dup2`. -/
def removed (state : State ι φ) (i : ι) (fd : Int) : Option (Int × φ) → State ι φ
  | none => state.finish i (.remove fd) (.flag true)
  | some (oldfd, file) => state.go i (.comparing oldfd fd file)

/-- The phases in which the thread is about to take `files_mutex_`, which it may hold already. -/
def needsMutex : Phase φ → Bool
  | .called (.add _) => false
  | .called _ | .searching _ _ | .inserting _ _ => true
  | _ => false

def available (state : State ι φ) (i : ι) : Bool := state.filesMutex.all (decide <| · = i)

def advance (state : State ι φ) (i : ι) : Phase φ → State ι φ
  | .idle => state
  | .called call => state.enter i call
  | .allocating taker => state.generate i (.generated taker)
  | .generated taker fd => state.go i (if state.map.fdValidationNeeded then .searching taker fd else .inserting taker fd)
  | .searching taker fd => state.go i (if state.map.exist fd then .again taker else .inserting taker fd)
  | .again taker => state.generate i (.searching taker)
  | .inserting taker fd => { state with map := state.map.insert fd taker.file }.finish i taker.call (.fd (.ok fd))
  | .erased fd rest =>
    if state.map.fdValidationNeeded && state.map.files.keys.isEmpty then state.go i (.resetting fd rest) else state.removed i fd rest
  | .resetting fd rest => (state.setValidationNeeded false).removed i fd rest
  | .comparing oldfd newfd file =>
    if state.map.fdIdx < newfd ∧ newfd ≠ 0 ∧ newfd ≠ 1 ∧ newfd ≠ 2 then state.go i (.flagging oldfd newfd file)
    else state.go i (.binding oldfd newfd file)
  | .flagging oldfd newfd file => (state.setValidationNeeded true).go i (.binding oldfd newfd file)
  | .binding oldfd newfd file => { state with map := state.map.insert newfd file }.finish i (.dup2 oldfd newfd) (.fd (.ok newfd))

/-- A thread that waits for the lock makes no step. -/
def next (state : State ι φ) : Event ι φ → State ι φ
  | .call i call =>
    match state.phases i with
    | .idle => state.go i (.called call)
    | _ => state
  | .step i => if needsMutex (state.phases i) && !state.available i then state else state.advance i (state.phases i)

end State
end GekkoFwd.OpenFileThreads
