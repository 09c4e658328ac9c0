import GekkoFwd.FdHooks

/-! The system calls of the library itself (`hook_internal` of `client/intercept.cpp`)
and the two phases of its start (`client/preload_context.cpp`), on the kernel's table.
The descriptors that the library has made carry numbers of their own, which a
relocation does not change. -/

namespace GekkoFwd

inductive Owner where
  | application
  | library (id : Nat)
  /-- What `protect_user_fds` puts on a free number. -/
  | guard
  deriving DecidableEq

/-- The calls whose result is one new descriptor. -/
inductive Creation where
  | sysOpen
  | sysCreat
  | sysOpenat
  | sysEpollCreate
  | sysEpollCreate1
  | sysInotifyInit
  | sysInotifyInit1
  | sysPerfEventOpen
  | sysTimerfdCreate
  | sysSocket
  | sysEventfd
  | sysEventfd2
  | sysAccept
  deriving DecidableEq

/-- A control message of `recvmsg`: descriptors from another process, or data of any
other level. -/
inductive ControlMessage where
  | rights (count : Nat)
  | other (type : Nat) (data : List Int)
  deriving DecidableEq

inductive FcntlCmd where
  | fDupfd (least : Int)
  | fDupfdCloexec (least : Int)
  | other
  deriving DecidableEq

/-- The cases of the switch, with the arguments that matter for descriptors. -/
inductive Syscall where
  | create (number : Creation)
  | sysDup (oldfd : Int)
  | sysDup2 (oldfd newfd : Int)
  | sysDup3 (oldfd newfd : Int)
  | sysSignalfd (fd : Int)
  | sysSignalfd4 (fd : Int)
  | sysSocketpair
  | sysPipe
  | sysPipe2
  | sysRecvmsg (messages : List ControlMessage)
  | sysFcntl (fd : Int) (cmd : FcntlCmd)
  | sysClose (fd : Int)
  /-- Any other number, by what the kernel does for it: `accept4`, `memfd_create` and
  `openat2` open a descriptor, `close_range` closes some. -/
  | default (opens : Nat) (closes : List Int)
  deriving DecidableEq

/-- What the kernel reports of a call: nothing about descriptors, its result, two
descriptors in an array, or control messages by their type. -/
inductive Answer where
  | value
  | result (fd : Int)
  | pair (first second : Int)
  | messages (received : List (Nat × List Int))

/-- The table, the number of descriptors that the library has made, and those of them
that it has closed. -/
structure Kernel where
  table : FdTable Owner
  created : Nat
  closed : List Nat

namespace Kernel

def openFrom (least : Int) (kernel : Kernel) : Except Int Int × Kernel :=
  match kernel.table.installFrom least (.library kernel.created) with
  | (.ok fd, table) => (.ok fd, { kernel with table, created := kernel.created + 1 })
  | (.error errno, table) => (.error errno, { kernel with table })

def openOne (kernel : Kernel) : Except Int Answer × Kernel :=
  match kernel.openFrom 0 with
  | (.ok fd, kernel) => (.ok (.result fd), kernel)
  | (.error errno, kernel) => (.error errno, kernel)

/-- As many descriptors as there are free numbers. -/
def openAll : Nat → Kernel → List Int × Kernel
  | 0, kernel => ([], kernel)
  | count + 1, kernel =>
    match kernel.openFrom 0 with
    | (.error _, kernel) => ([], kernel)
    | (.ok fd, kernel) =>
      let (fds, kernel) := openAll count kernel
      (fd :: fds, kernel)

/-- Both descriptors or none. -/
def openPair (kernel : Kernel) : Except Int Answer × Kernel :=
  match kernel.openAll 2 with
  | ([first, second], kernel) => (.ok (.pair first second), kernel)
  | _ => (.error FdTable.emfile, kernel)

/-- The closed descriptors once the library gives up what it has at a number. -/
def release (fd : Int) (kernel : Kernel) : List Nat :=
  match kernel.table.get fd with
  | some (.library id) => id :: kernel.closed
  | _ => kernel.closed

/-- `dup2` to another number. -/
def replace (fd : Int) (kernel : Kernel) : Except Int Answer × Kernel :=
  if valid : 0 ≤ fd ∧ fd < kernel.table.limit then
    (.ok (.result fd), ⟨kernel.table.bind fd (.library kernel.created) valid, kernel.created + 1, kernel.release fd⟩)
  else (.error FdTable.ebadf, kernel)

def close (fd : Int) (kernel : Kernel) : Except Int Answer × Kernel :=
  match kernel.table.close fd with
  | (.ok _, table) => (.ok .value, { kernel with table, closed := kernel.release fd })
  | (.error errno, table) => (.error errno, { kernel with table })

def signalfd (fd : Int) (kernel : Kernel) : Except Int Answer × Kernel :=
  if fd = -1 then kernel.openOne
  else if (kernel.table.get fd).isSome then (.ok (.result fd), kernel)
  else (.error FdTable.ebadf, kernel)

/-- `SCM_RIGHTS`. -/
def scmRights : Nat := 1

/-- The messages as the caller finds them. -/
def receive : List ControlMessage → Kernel → List (Nat × List Int) × Kernel
  | [], kernel => ([], kernel)
  | .rights count :: messages, kernel =>
    let (fds, kernel) := kernel.openAll count
    let (received, kernel) := receive messages kernel
    ((scmRights, fds) :: received, kernel)
  | .other type data :: messages, kernel =>
    let (received, kernel) := receive messages kernel
    ((type, data) :: received, kernel)

def fcntl (kernel : Kernel) : FcntlCmd → Except Int Answer × Kernel
  | .fDupfd least | .fDupfdCloexec least =>
    match kernel.openFrom least with
    | (.ok fd, kernel) => (.ok (.result fd), kernel)
    | (.error errno, kernel) => (.error errno, kernel)
  | .other => (.ok .value, kernel)

/-- `syscall_no_intercept` for a call that the kernel does not refuse for reasons of its own. -/
def syscall (kernel : Kernel) : Syscall → Except Int Answer × Kernel
  | .create _ => kernel.openOne
  | .sysDup oldfd => if (kernel.table.get oldfd).isSome then kernel.openOne else (.error FdTable.ebadf, kernel)
  | .sysDup2 oldfd newfd =>
    if (kernel.table.get oldfd).isNone then (.error FdTable.ebadf, kernel)
    else if oldfd = newfd then (.ok (.result newfd), kernel)
    else kernel.replace newfd
  | .sysDup3 oldfd newfd =>
    if oldfd = newfd then (.error FdTable.einval, kernel)
    else if (kernel.table.get oldfd).isNone then (.error FdTable.ebadf, kernel)
    else kernel.replace newfd
  | .sysSignalfd fd | .sysSignalfd4 fd => kernel.signalfd fd
  | .sysSocketpair | .sysPipe | .sysPipe2 => kernel.openPair
  | .sysRecvmsg messages =>
    let (received, kernel) := kernel.receive messages
    (.ok (.messages received), kernel)
  | .sysFcntl fd cmd => if (kernel.table.get fd).isSome then kernel.fcntl cmd else (.error FdTable.ebadf, kernel)
  | .sysClose fd => kernel.close fd
  | .default opens closes =>
    let opened := (kernel.openAll opens).2
    (.ok .value, closes.foldl (fun kernel fd => (kernel.close fd).2) opened)

end Kernel

/-- The descriptors that `hook_internal` registers. It looks at the type of a control
message and not at its level. -/
def Answer.descriptors : Answer → List Int
  | .value => []
  | .result fd => [fd]
  | .pair first second => [first, second]
  | .messages received => (received.filter fun message => message.1 = Kernel.scmRights).flatMap Prod.snd

/-- Where `init_preload` is. -/
inductive InitPhase where
  | constructed
  | guarded
  | running
  deriving DecidableEq

structure Session (φ : Type) where
  fileMap : OpenFileMap φ
  internal : InternalFds
  protectedFds : Nat → Bool
  kernel : Kernel
  phase : InitPhase

namespace Session
variable {φ : Type} (limits : FdLimits) (ndebug : Bool)

/-- The hooks of the application see one table; `hook_close` does without `errno`. -/
def process (session : Session φ) : Process φ Owner := ⟨session.fileMap, session.kernel.table, session.internal, 0⟩

/-- The process when its context has been constructed. -/
def initial (fileMap : OpenFileMap φ) (table : FdTable Owner) : Session φ :=
  ⟨fileMap, .initial, fun _ => false, ⟨table, 0, []⟩, .constructed⟩

/-- The numbers under which the descriptors go on. -/
def registerAll : List Int → InternalFds → FdTable Owner → Except Exn (List Int × InternalFds × FdTable Owner)
  | [], internal, table => return ([], internal, table)
  | fd :: fds, internal, table => do
    let (ifd, internal, table) ← internal.registerInternalFd limits ndebug table fd
    let (ifds, internal, table) ← registerAll fds internal table
    return (ifd :: ifds, internal, table)

/-- The descriptors that the library gets; `refusal` is the error of a kernel that does
not carry the call out. -/
def hookInternal (call : Syscall) (refusal : Option Int) (session : Session φ) : Except Exn (Except Int (List Int) × Session φ) :=
  match refusal with
  | some errno => return (.error errno, session)
  | none =>
    match session.kernel.syscall call with
    | (.error errno, kernel) => return (.error errno, { session with kernel })
    | (.ok answer, kernel) =>
      match call with
      | .sysClose fd => do
        let internal ← session.internal.unregisterInternalFd limits ndebug fd
        return (.ok [], { session with internal, kernel })
      | _ => do
        let (fds, internal, table) ← registerAll limits ndebug answer.descriptors session.internal kernel.table
        return (.ok fds, { session with internal, kernel := { kernel with table } })

/-- `MAX_USER_FDS`. -/
def userFds : List Nat := List.range limits.minInternalFd.toNat

/-- One round of the loop of `protect_user_fds`. -/
def protectFd (nullfd : Int) (state : FdTable Owner × (Nat → Bool)) (fd : Nat) : Except Exn (FdTable Owner × (Nat → Bool)) :=
  if (state.1.get fd).isSome then return state
  else
    match state.1.dup2 nullfd fd with
    | (.ok _, table) => return (table, Function.update state.2 fd true)
    | (.error _, table) => do
      assertThat ndebug false
      return (table, Function.update state.2 fd true)

/-- A number of `/dev/null` outside of `protected_fds_` is out of the range of the bitset. -/
def protectUserFds (session : Session φ) : Except Exn (Session φ) :=
  match session.kernel.table.install .guard with
  | (.error _, _) => do
    assertThat ndebug false
    throw .outOfRange
  | (.ok nullfd, table) => do
    if limits.minInternalFd ≤ nullfd then throw .outOfRange
    let (table, protectedFds) ← (userFds limits).foldlM (protectFd ndebug nullfd)
      (table, Function.update session.protectedFds nullfd.toNat true)
    return { session with
      kernel := { session.kernel with table }, protectedFds, phase := .guarded
      internal := { session.internal with internalFdsMustRelocate := false } }

def unprotectUserFds (session : Session φ) : Session φ :=
  { session with
    kernel := { session.kernel with
      table := (userFds limits).foldl (fun table fd => if session.protectedFds fd then (table.close fd).2 else table)
        session.kernel.table }
    phase := .running
    internal := { session.internal with internalFdsMustRelocate := true } }

end Session

/-- What happens in the process: a call of the library, a step of `init_preload`, a
`close` of the application, another call that gives it a number, or one that changes
its GekkoFS files. -/
inductive Action (φ : Type) where
  | internal (call : Syscall) (refusal : Option Int)
  | protectUserFds
  | unprotectUserFds
  | close (fd : Int)
  | bind (fd : Int)
  | files (fileMap : OpenFileMap φ)

namespace Session
variable {φ : Type} (limits : FdLimits) (ndebug : Bool)

def act (session : Session φ) : Action φ → Except Exn (Session φ)
  | .internal call refusal => (session.hookInternal limits ndebug call refusal).map Prod.snd
  | .protectUserFds => session.protectUserFds limits ndebug
  | .unprotectUserFds => .ok (session.unprotectUserFds limits)
  | .close fd =>
    match FdHooks.hookClose limits session.process fd with
    | none => .error .outOfRange
    | some (_, after) => .ok { session with
        fileMap := after.fileMap, internal := after.internal, kernel := { session.kernel with table := after.kernel } }
  | .bind fd =>
    if valid : 0 ≤ fd ∧ fd < session.kernel.table.limit then
      .ok { session with kernel := { session.kernel with table := session.kernel.table.bind fd .application valid } }
    else .ok session
  | .files fileMap => .ok { session with fileMap }

end Session
end GekkoFwd
