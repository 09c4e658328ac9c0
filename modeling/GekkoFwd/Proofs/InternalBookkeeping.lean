import GekkoFwd.Proofs.InternalDescriptors

/-! The system calls of the library and the steps of its start keep the books right, as
long as new descriptors find their place. -/

namespace GekkoFwd.Proofs.InternalDescriptors
open Session

variable {limits : FdLimits} {ndebug : Bool} {pending : List Int} {internal : InternalFds} {kernel after : Kernel}
  {table : FdTable Owner} {fd least : Int} {count more : Nat} {φ : Type} {session : Session φ}

/-- As long as the library's descriptors are not relocated, all lower numbers are taken. -/
def Guarded (limits : FdLimits) (internal : InternalFds) (table : FdTable Owner) : Prop :=
  internal.internalFdsMustRelocate = false → ∀ fd, 0 ≤ fd → fd < limits.minInternalFd → table.get fd ≠ none

/-- The kernel finds so many numbers where the library wants them. -/
def Pick (limits : FdLimits) (internal : InternalFds) (table : FdTable Owner) (least : Int) (count : Nat) : Prop :=
  if internal.internalFdsMustRelocate then count ≤ (table.unbound (max least 0) limits.minInternalFd).card
  else count ≤ (table.unbound (max least limits.minInternalFd) limits.maxOpenFds).card

/-- There are so many places to relocate descriptors to. -/
def Places (limits : FdLimits) (internal : InternalFds) (table : FdTable Owner) (count : Nat) : Prop :=
  internal.internalFdsMustRelocate = true → count ≤ (table.unbound limits.minInternalFd limits.maxOpenFds).card

theorem minInternalFd_nonneg : 0 ≤ limits.minInternalFd := by
  have fits := limits.fits
  rw [FdLimits.minInternalFd]
  omega

theorem minInternalFd_le : limits.minInternalFd ≤ limits.maxOpenFds := by
  rw [FdLimits.minInternalFd]
  omega

/-- The number that the kernel picks, and what is left. -/
theorem Pick.spec (pick : Pick limits internal table least (count + 1)) (limit : limits.maxOpenFds ≤ table.limit)
    (guarded : Guarded limits internal table) (owner : Owner) :
    ∃ fd : Int, ∃ valid : 0 ≤ fd ∧ fd < table.limit, table.installFrom least owner = (.ok fd, table.bind fd owner valid) ∧
      table.get fd = none ∧ Placed limits internal fd ∧ Pick limits internal (table.bind fd owner valid) least count ∧
      (internal.internalFdsMustRelocate = true → fd < limits.minInternalFd) := by
  have lower := @minInternalFd_nonneg limits
  have upper := @minInternalFd_le limits
  have less : ∀ {low high fd : Int} {valid : 0 ≤ fd ∧ fd < table.limit}, count + 1 ≤ (table.unbound low high).card →
      count ≤ ((table.bind fd owner valid).unbound low high).card := by
    intro low high fd valid enough
    rw [FdTable.unbound_bind]
    have erased := @Finset.pred_card_le_card_erase _ (table.unbound low high) fd _
    omega
  have found : ∀ {low high : Int}, count + 1 ≤ (table.unbound low high).card → ∃ other, (low ≤ other ∧ other < high) ∧
      table.get other = none := by
    intro low high enough
    obtain ⟨other, member⟩ := Finset.card_pos.mp (Nat.lt_of_lt_of_le (Nat.succ_pos count) enough)
    exact ⟨other, FdTable.mem_unbound.mp member⟩
  unfold Pick at pick ⊢
  cases phase : internal.internalFdsMustRelocate with
  | true =>
    rw [phase] at pick
    obtain ⟨other, range, free⟩ := found pick
    obtain ⟨fd, valid, installed, bounds, unbound⟩ := FdTable.installFrom_spec least owner
      ⟨by omega, by omega⟩ (by omega) free
    refine ⟨fd, valid, installed, unbound, ?_, less pick, fun _ => by omega⟩
    rw [Placed, phase]
    exact iff_of_false (fun inside => by have := inside.1; omega) nofun
  | false =>
    rw [phase] at pick
    obtain ⟨other, range, free⟩ := found pick
    obtain ⟨fd, valid, installed, bounds, unbound⟩ := FdTable.installFrom_spec least owner
      ⟨by omega, by omega⟩ (by omega) free
    refine ⟨fd, valid, installed, unbound, ?_, less pick, nofun⟩
    rw [Placed, phase]
    refine iff_of_true ⟨?_, by omega⟩ rfl
    exact Int.not_lt.mp fun below => guarded phase fd valid.1 below unbound

theorem Guarded.bind {owner : Owner} (guarded : Guarded limits internal table) (valid : 0 ≤ fd ∧ fd < table.limit) :
    Guarded limits internal (table.bind fd owner valid) := by
  intro kept other natural below
  rw [FdTable.get_bind]
  split
  next => nofun
  next => exact guarded kept other natural below

/-- What the kernel has done when it has made some descriptors for the library. -/
structure Opened (limits : FdLimits) (pending : List Int) (internal : InternalFds) (kernel : Kernel) (least : Int) (more : Nat)
    (fds : List Int) (after : Kernel) : Prop where
  books : Books limits (pending ++ fds) internal after
  guarded : Guarded limits internal after.table
  pick : Pick limits internal after.table least more
  places : internal.internalFdsMustRelocate = true → after.table.unbound limits.minInternalFd limits.maxOpenFds =
    kernel.table.unbound limits.minInternalFd limits.maxOpenFds

theorem release_unbound (unbound : kernel.table.get fd = none) : kernel.release fd = kernel.closed := by
  rw [Kernel.release, unbound]

theorem Books.openFrom (books : Books limits pending internal kernel) (guarded : Guarded limits internal kernel.table)
    (pick : Pick limits internal kernel.table least (more + 1)) :
    ∃ fd after, kernel.openFrom least = (.ok fd, after) ∧ Opened limits pending internal kernel least more [fd] after := by
  obtain ⟨fd, valid, installed, unbound, placed, left, below⟩ := pick.spec books.limit guarded (.library kernel.created)
  have fresh : fd ∉ pending := by
    intro member
    obtain ⟨id, bound⟩ := books.made fd member
    rw [unbound] at bound
    cases bound
  have bound := books.bind valid fresh placed
  rw [release_unbound unbound] at bound
  refine ⟨fd, _, by rw [Kernel.openFrom, installed], bound, guarded.bind valid, left, fun moves => ?_⟩
  rw [FdTable.unbound_bind]
  refine Finset.erase_eq_of_notMem fun member => ?_
  have range := (FdTable.mem_unbound.mp member).1
  exact absurd (below moves) (Int.not_lt.mpr range.1)

theorem Opened.trans {fds rest : List Int} {between : Kernel} (opened : Opened limits pending internal kernel least count fds between)
    (later : Opened limits (pending ++ fds) internal between least more rest after) :
    Opened limits pending internal kernel least more (fds ++ rest) after :=
  ⟨List.append_assoc pending fds rest ▸ later.books, later.guarded, later.pick,
    fun moves => (later.places moves).trans (opened.places moves)⟩

theorem Books.openAll (books : Books limits pending internal kernel) (guarded : Guarded limits internal kernel.table)
    (pick : Pick limits internal kernel.table 0 (more + count)) :
    ∃ fds after, kernel.openAll count = (fds, after) ∧ fds.length = count ∧ Opened limits pending internal kernel 0 more fds after := by
  induction count generalizing pending kernel with
  | zero => exact ⟨[], kernel, rfl, rfl, (List.append_nil pending).symm ▸ books, guarded, pick, fun _ => rfl⟩
  | succ count ih =>
    obtain ⟨fd, between, ran, opened⟩ := books.openFrom guarded pick
    obtain ⟨fds, after, all, length, later⟩ := ih opened.books opened.guarded opened.pick
    refine ⟨fd :: fds, after, by rw [Kernel.openAll, ran]; simp only [all], by rw [List.length_cons, length], opened.trans later⟩

/-- The descriptors that the messages bring along. -/
def rightsCount : List ControlMessage → Nat
  | [] => 0
  | .rights count :: messages => rightsCount messages + count
  | .other _ _ :: messages => rightsCount messages

theorem descriptors_rights {fds : List Int} {received : List (Nat × List Int)} :
    (Answer.messages ((Kernel.scmRights, fds) :: received)).descriptors = fds ++ (Answer.messages received).descriptors := rfl

theorem descriptors_other {type : Nat} {data : List Int} {received : List (Nat × List Int)} (other : type ≠ Kernel.scmRights) :
    (Answer.messages ((type, data) :: received)).descriptors = (Answer.messages received).descriptors := by
  rw [Answer.descriptors, List.filter_cons_of_neg (by simpa using other)]
  rfl

theorem Books.receive (books : Books limits pending internal kernel) (guarded : Guarded limits internal kernel.table)
    {messages : List ControlMessage} (pick : Pick limits internal kernel.table 0 (more + rightsCount messages))
    (plain : ∀ type data, .other type data ∈ messages → type ≠ Kernel.scmRights) :
    ∃ received after, kernel.receive messages = (received, after) ∧
      (Answer.messages received).descriptors.length = rightsCount messages ∧
      Opened limits pending internal kernel 0 more (Answer.messages received).descriptors after := by
  induction messages generalizing pending kernel with
  | nil => exact ⟨[], kernel, rfl, rfl, (List.append_nil pending).symm ▸ books, guarded, pick, fun _ => rfl⟩
  | cons message messages ih =>
    have rest : ∀ type data, .other type data ∈ messages → type ≠ Kernel.scmRights := fun type data member =>
      plain type data (List.mem_cons_of_mem _ member)
    cases message with
    | rights count =>
      have enough : Pick limits internal kernel.table 0 (more + rightsCount messages + count) := by
        rwa [rightsCount, ← Nat.add_assoc] at pick
      obtain ⟨fds, between, ran, length, opened⟩ := books.openAll guarded enough
      obtain ⟨received, after, later, total, last⟩ := ih opened.books opened.guarded opened.pick rest
      refine ⟨(Kernel.scmRights, fds) :: received, after, by rw [Kernel.receive]; simp only [ran, later], ?_, ?_⟩
      · rw [descriptors_rights, List.length_append, length, total, rightsCount, Nat.add_comm]
      · exact descriptors_rights ▸ opened.trans last
    | other type data =>
      obtain ⟨received, after, later, total, opened⟩ := ih books guarded pick rest
      refine ⟨(type, data) :: received, after, by rw [Kernel.receive]; simp only [later], ?_⟩
      rw [descriptors_other (plain type data List.mem_cons_self)]
      exact ⟨total, opened⟩

structure Sound (limits : FdLimits) (session : Session φ) : Prop where
  books : Books limits [] session.internal session.kernel
  guarded : Guarded limits session.internal session.kernel.table
  phase : session.phase = .guarded ↔ session.internal.internalFdsMustRelocate = false

/-- The call is handled without an exception, and its descriptors are the library's. -/
def Handled (limits : FdLimits) (ndebug : Bool) (session : Session φ) (call : Syscall) (refusal : Option Int) : Prop :=
  ∃ answer after, session.hookInternal limits ndebug call refusal = .ok (answer, after) ∧ Sound limits after ∧
    after.phase = session.phase ∧ ∀ fds, answer = .ok fds → ∀ fd ∈ fds, Internal limits fd ∧ ∃ id,
      after.kernel.table.get fd = some (.library id)

variable {call : Syscall} {answer : Answer}

theorem Sound.refused (sound : Sound limits session) (errno : Int) : Handled limits ndebug session call (some errno) :=
  ⟨_, _, rfl, sound, rfl, nofun⟩

theorem Sound.failed (sound : Sound limits session) {errno : Int} (ran : session.kernel.syscall call = (.error errno, session.kernel)) :
    Handled limits ndebug session call none := by
  refine ⟨.error errno, session, ?_, sound, rfl, nofun⟩
  rw [hookInternal, ran]
  rfl

theorem hookInternal_registers {fds : List Int} (other : ∀ fd, call ≠ .sysClose fd)
    (ran : session.kernel.syscall call = (.ok answer, after))
    (all : registerAll limits ndebug answer.descriptors session.internal after.table = .ok (fds, internal, table)) :
    session.hookInternal limits ndebug call none = .ok (.ok fds, { session with internal, kernel := { after with table } }) := by
  cases call with
  | sysClose fd => exact absurd rfl (other fd)
  | _ => simp only [hookInternal, ran, all, Bind.bind, Except.bind, pure, Except.pure]

theorem Sound.registers (sound : Sound limits session) (other : ∀ fd, call ≠ .sysClose fd)
    (ran : session.kernel.syscall call = (.ok answer, after)) (books : Books limits answer.descriptors session.internal after)
    (guarded : Guarded limits session.internal after.table)
    (places : Places limits session.internal after.table answer.descriptors.length) :
    Handled limits ndebug session call none := by
  obtain ⟨fds, internal, table, all, filed⟩ := books.registerAll ndebug places
  refine ⟨.ok fds, _, hookInternal_registers other ran all, ⟨filed.books, fun kept => ?_, ?_⟩, rfl, fun other same => ?_⟩
  · rw [filed.phase] at kept
    rw [filed.user kept]
    exact guarded kept
  · rw [filed.phase]
    exact sound.phase
  · cases same
    exact filed.bound

/-- The kernel has opened the descriptors that the call reports. -/
theorem Sound.opened (sound : Sound limits session) (other : ∀ fd, call ≠ .sysClose fd)
    (ran : session.kernel.syscall call = (.ok answer, after))
    (opened : Opened limits [] session.internal session.kernel least more answer.descriptors after)
    (places : Places limits session.internal session.kernel.table answer.descriptors.length) :
    Handled limits ndebug session call none := by
  refine sound.registers other ran opened.books opened.guarded fun moves => ?_
  rw [opened.places moves]
  exact places moves

/-- What the hook does with a call is right as long as new descriptors find their place:
the calls that open them are among those it knows, no descriptor is reused, and there
is room. -/
def Served (limits : FdLimits) (session : Session φ) : Syscall → Prop
  | .create _ | .sysDup _ => Room 0 1
  | .sysDup2 oldfd newfd =>
    Placed limits session.internal newfd ∧ Places limits session.internal session.kernel.table 1 ∧
      (session.internal.internalFdsMustRelocate = true → oldfd ≠ newfd)
  | .sysDup3 _ newfd => Placed limits session.internal newfd ∧ Places limits session.internal session.kernel.table 1
  | .sysSignalfd fd | .sysSignalfd4 fd =>
    if fd = -1 then Room 0 1 else session.internal.internalFdsMustRelocate = false ∧ Internal limits fd
  | .sysSocketpair | .sysPipe | .sysPipe2 => Room 0 2
  | .sysRecvmsg messages => Room 0 (rightsCount messages) ∧ ∀ type data, .other type data ∈ messages → type ≠ Kernel.scmRights
  | .sysFcntl _ (.fDupfd least) | .sysFcntl _ (.fDupfdCloexec least) => Room least 1
  | .sysFcntl _ .other => True
  | .sysClose _ => True
  | .default opens closes => opens = 0 ∧ closes = []
where
  /-- Numbers for the kernel and places for the library. -/
  Room (least : Int) (count : Nat) : Prop :=
    Pick limits session.internal session.kernel.table least count ∧ Places limits session.internal session.kernel.table count

theorem Sound.openFrom (sound : Sound limits session) (other : ∀ fd, call ≠ .sysClose fd) (room : Served.Room limits session least 1)
    (ran : ∀ fd kernel, session.kernel.openFrom least = (.ok fd, kernel) → session.kernel.syscall call = (.ok (.result fd), kernel)) :
    Handled limits ndebug session call none := by
  obtain ⟨fd, kernel, opening, opened⟩ := sound.books.openFrom sound.guarded room.1
  exact sound.opened other (ran fd kernel opening) opened room.2

theorem Sound.openOne (sound : Sound limits session) (other : ∀ fd, call ≠ .sysClose fd) (room : Served.Room limits session 0 1)
    (ran : session.kernel.syscall call = session.kernel.openOne) : Handled limits ndebug session call none := by
  refine sound.openFrom other room fun fd kernel opening => ?_
  rw [ran, Kernel.openOne, opening]

theorem Sound.openPair (sound : Sound limits session) (other : ∀ fd, call ≠ .sysClose fd) (room : Served.Room limits session 0 2)
    (ran : session.kernel.syscall call = session.kernel.openPair) : Handled limits ndebug session call none := by
  have pick : Pick limits session.internal session.kernel.table 0 (0 + 2) := room.1
  obtain ⟨fds, kernel, opening, length, opened⟩ := sound.books.openAll sound.guarded pick
  obtain ⟨first, second, rfl⟩ := List.length_eq_two.mp length
  have reported : session.kernel.syscall call = (.ok (.pair first second), kernel) := by
    rw [ran, Kernel.openPair, opening]
  exact sound.opened other reported opened room.2

theorem Sound.replace (sound : Sound limits session) (other : ∀ fd, call ≠ .sysClose fd) {newfd : Int}
    (placed : Placed limits session.internal newfd) (places : Places limits session.internal session.kernel.table 1)
    (ran : session.kernel.syscall call = session.kernel.replace newfd) : Handled limits ndebug session call none := by
  by_cases valid : 0 ≤ newfd ∧ newfd < session.kernel.table.limit
  · rw [Kernel.replace, dif_pos valid] at ran
    refine sound.registers other ran (sound.books.bind valid List.not_mem_nil placed) (sound.guarded.bind valid) fun moves => ?_
    rw [FdTable.unbound_bind, Finset.erase_eq_of_notMem]
    · exact places moves
    · intro member
      exact absurd (placed.mp (FdTable.mem_unbound.mp member).1) (by simp [moves])
  · rw [Kernel.replace, dif_neg valid] at ran
    exact sound.failed ran

/-- A descriptor of the library is reported once more while nothing is relocated. -/
theorem Sound.again (sound : Sound limits session) (other : ∀ fd, call ≠ .sysClose fd) {owner : Owner}
    (kept : session.internal.internalFdsMustRelocate = false) (inside : Internal limits fd)
    (bound : session.kernel.table.get fd = some owner)
    (ran : session.kernel.syscall call = (.ok (.result fd), session.kernel)) : Handled limits ndebug session call none := by
  obtain ⟨id, rfl⟩ := sound.books.foreign inside.1 bound
  refine sound.registers other ran ?_ sound.guarded fun moves => absurd moves (by simp [kept])
  exact { sound.books with
    free := fun within marked => (sound.books.free within marked).imp_right fun member => absurd member List.not_mem_nil
    recorded := fun held => (sound.books.recorded held).imp_right fun member => absurd member List.not_mem_nil
    made := fun number member => ⟨id, List.mem_singleton.mp member ▸ bound⟩
    placed := fun number member => List.mem_singleton.mp member ▸ iff_of_true inside kept
    nodup := List.nodup_singleton fd }

theorem Sound.dup2 (sound : Sound limits session) {oldfd newfd : Int} (served : Served limits session (.sysDup2 oldfd newfd)) :
    Handled limits ndebug session (.sysDup2 oldfd newfd) none := by
  obtain ⟨placed, places, different⟩ := served
  cases bound : session.kernel.table.get oldfd with
  | none => exact sound.failed (by rw [Kernel.syscall, bound]; rfl)
  | some owner =>
    by_cases same : oldfd = newfd
    · subst same
      have kept : session.internal.internalFdsMustRelocate = false := Bool.eq_false_iff.mpr fun moves => different moves rfl
      exact sound.again nofun kept (placed.mpr kept) bound (by simp [Kernel.syscall, bound])
    · exact sound.replace nofun placed places (by simp [Kernel.syscall, bound, same])

theorem Sound.dup3 (sound : Sound limits session) {oldfd newfd : Int} (served : Served limits session (.sysDup3 oldfd newfd)) :
    Handled limits ndebug session (.sysDup3 oldfd newfd) none := by
  by_cases same : oldfd = newfd
  · exact sound.failed (by rw [Kernel.syscall, if_pos same])
  · cases bound : session.kernel.table.get oldfd with
    | none => exact sound.failed (by simp [Kernel.syscall, same, bound]; rfl)
    | some owner => exact sound.replace nofun served.1 served.2 (by simp [Kernel.syscall, same, bound])

theorem Sound.signalfd (sound : Sound limits session) (other : ∀ fd, call ≠ .sysClose fd)
    (served : if fd = -1 then Served.Room limits session 0 1 else session.internal.internalFdsMustRelocate = false ∧ Internal limits fd)
    (ran : session.kernel.syscall call = session.kernel.signalfd fd) : Handled limits ndebug session call none := by
  rw [Kernel.signalfd] at ran
  split at served
  next new => exact sound.openOne other served (by rw [ran, if_pos new])
  next old =>
    rw [if_neg old] at ran
    cases bound : session.kernel.table.get fd with
    | none => exact sound.failed (by rw [ran, bound]; rfl)
    | some owner => exact sound.again other served.1 served.2 bound (by rw [ran, bound]; rfl)

theorem Sound.fcntl (sound : Sound limits session) {cmd : FcntlCmd} (served : Served limits session (.sysFcntl fd cmd)) :
    Handled limits ndebug session (.sysFcntl fd cmd) none := by
  cases bound : session.kernel.table.get fd with
  | none => exact sound.failed (by rw [Kernel.syscall, bound]; rfl)
  | some owner =>
    have ran : session.kernel.syscall (.sysFcntl fd cmd) = session.kernel.fcntl cmd := by rw [Kernel.syscall, bound]; rfl
    cases cmd with
    | other => exact sound.registers nofun ran sound.books sound.guarded fun _ => Nat.zero_le _
    | fDupfd least | fDupfdCloexec least =>
      refine sound.openFrom nofun served fun number kernel opening => ?_
      rw [ran, Kernel.fcntl, opening]

theorem Sound.handles (sound : Sound limits session) (other : ∀ fd, call ≠ .sysClose fd) (served : Served limits session call)
    (refusal : Option Int) : Handled limits ndebug session call refusal := by
  cases refusal with
  | some errno => exact sound.refused errno
  | none =>
    cases call with
    | create number => exact sound.openOne other served rfl
    | sysDup oldfd =>
      cases bound : session.kernel.table.get oldfd with
      | none => exact sound.failed (by rw [Kernel.syscall, bound]; rfl)
      | some owner => exact sound.openOne other served (by rw [Kernel.syscall, bound]; rfl)
    | sysDup2 oldfd newfd => exact sound.dup2 served
    | sysDup3 oldfd newfd => exact sound.dup3 served
    | sysSignalfd fd | sysSignalfd4 fd => exact sound.signalfd other served rfl
    | sysSocketpair | sysPipe | sysPipe2 => exact sound.openPair other served rfl
    | sysRecvmsg messages =>
      have pick : Pick limits session.internal session.kernel.table 0 (0 + rightsCount messages) := by
        rw [Nat.zero_add]
        exact served.1.1
      obtain ⟨received, kernel, ran, length, opened⟩ := sound.books.receive sound.guarded pick served.2
      refine sound.opened other (by simp only [Kernel.syscall, ran]) opened ?_
      rw [length]
      exact served.1.2
    | sysFcntl fd cmd => exact sound.fcntl served
    | sysClose fd => exact absurd rfl (other fd)
    | default opens closes =>
      obtain ⟨rfl, rfl⟩ := served
      exact sound.registers other rfl sound.books sound.guarded fun _ => Nat.zero_le _

/-- The library closes its own descriptors without an exception. -/
theorem Sound.closes (ndebug : Bool) (sound : Sound limits session) {id : Nat} (bound : session.kernel.table.get fd = some (.library id)) :
    ∃ after, session.hookInternal limits ndebug (.sysClose fd) none = .ok (.ok [], after) ∧ Sound limits after ∧
      after.phase = session.phase := by
  obtain ⟨unregistered, closed, books⟩ := sound.books.unregister ndebug bound
  refine ⟨{ session with
    internal := session.internal.assign (slot limits fd) true
    kernel := { session.kernel with table := session.kernel.table.unbind fd, closed := session.kernel.release fd } }, ?_,
      ⟨books, fun kept other natural below => ?_, sound.phase⟩, rfl⟩
  · simp only [Session.hookInternal, Kernel.syscall, closed, unregistered, Bind.bind, Except.bind, pure, Except.pure]
  · have inside := (sound.books.recorded bound).resolve_right List.not_mem_nil
    rw [FdTable.get_unbind, if_neg fun same : other = fd => absurd below (Int.not_lt.mpr (same ▸ inside.1))]
    exact sound.guarded kept other natural below

/-- Whatever number the library closes, the books are right if there was no exception. -/
theorem Sound.close (sound : Sound limits session) {refusal : Option Int} {result : Except Int (List Int)} {closed : Session φ}
    (ran : session.hookInternal limits ndebug (.sysClose fd) refusal = .ok (result, closed)) :
    Sound limits closed ∧ closed.phase = session.phase := by
  cases refusal with
  | some errno =>
    cases ran
    exact ⟨sound, rfl⟩
  | none =>
    cases bound : session.kernel.table.get fd with
    | none =>
      simp only [Session.hookInternal, Kernel.syscall, Kernel.close, FdTable.close, bound] at ran
      cases ran
      exact ⟨sound, rfl⟩
    | some owner =>
      by_cases above : limits.minInternalFd ≤ fd
      · obtain ⟨id, rfl⟩ := sound.books.foreign above bound
        obtain ⟨after, closes, kept, phase⟩ := sound.closes ndebug bound
        cases closes.symm.trans ran
        exact ⟨kept, phase⟩
      · simp only [Session.hookInternal, Kernel.syscall, Kernel.close, FdTable.close, bound, InternalFds.unregisterInternalFd,
          position_below (Int.not_le.mp above), assertThat] at ran
        split at ran <;> cases ran

/-- More numbers below the internal range are taken, and not by the library. -/
structure Fills (limits : FdLimits) (before after : FdTable Owner) : Prop where
  limit : after.limit = before.limit
  above : ∀ fd, limits.minInternalFd ≤ fd → after.get fd = before.get fd
  kept : ∀ {fd owner}, before.get fd = some owner → after.get fd = some owner
  library : ∀ {fd id}, after.get fd = some (.library id) → before.get fd = some (.library id)

theorem Fills.trans {before between after : FdTable Owner} (first : Fills limits before between) (second : Fills limits between after) :
    Fills limits before after :=
  ⟨second.limit.trans first.limit, fun fd above => (second.above fd above).trans (first.above fd above),
    fun bound => second.kept (first.kept bound), fun bound => first.library (second.library bound)⟩

theorem fills_bind (below : fd < limits.minInternalFd) (unbound : table.get fd = none) (valid : 0 ≤ fd ∧ fd < table.limit) :
    Fills limits table (table.bind fd .guard valid) := by
  refine ⟨rfl, fun other above => ?_, fun {other owner} bound => ?_, fun {other id} bound => ?_⟩
  · rw [FdTable.get_bind, if_neg fun same : other = fd => absurd below (Int.not_lt.mpr (same ▸ above))]
  · rw [FdTable.get_bind, if_neg, bound]
    rintro rfl
    exact absurd (unbound.symm.trans bound) nofun
  · rw [FdTable.get_bind] at bound
    split at bound
    next => cases bound
    next => exact bound

theorem protectFd_fills {nullfd : Int} {state result : FdTable Owner × (Nat → Bool)} {number : Nat}
    (below : (number : Int) < limits.minInternalFd) (limit : limits.maxOpenFds ≤ state.1.limit) (null : state.1.get nullfd = some .guard)
    (ran : protectFd ndebug nullfd state number = .ok result) : Fills limits state.1 result.1 ∧ result.1.get number ≠ none := by
  have valid : 0 ≤ (number : Int) ∧ (number : Int) < state.1.limit := by
    have upper := @minInternalFd_le limits
    omega
  rw [protectFd] at ran
  split at ran
  next taken =>
    cases ran
    exact ⟨⟨rfl, fun _ _ => rfl, id, id⟩, Option.isSome_iff_ne_none.mp taken⟩
  next unbound =>
    have unbound := Option.not_isSome_iff_eq_none.mp unbound
    have different : nullfd ≠ number := by
      rintro rfl
      cases unbound.symm.trans null
    simp only [FdTable.dup2, null, if_neg different, dif_pos valid] at ran
    cases ran
    refine ⟨fills_bind below unbound valid, ?_⟩
    rw [FdTable.get_bind, if_pos rfl]
    exact Option.some_ne_none _

/-- After the loop, all its numbers are taken. -/
theorem foldlM_protectFd {nullfd : Int} {numbers : List Nat} {state result : FdTable Owner × (Nat → Bool)}
    (below : ∀ number ∈ numbers, (number : Int) < limits.minInternalFd) (limit : limits.maxOpenFds ≤ state.1.limit)
    (null : state.1.get nullfd = some .guard) (ran : numbers.foldlM (protectFd ndebug nullfd) state = .ok result) :
    Fills limits state.1 result.1 ∧ ∀ number ∈ numbers, result.1.get number ≠ none := by
  induction numbers generalizing state with
  | nil =>
    cases ran
    exact ⟨⟨rfl, fun _ _ => rfl, id, id⟩, nofun⟩
  | cons number numbers ih =>
    rw [List.foldlM_cons] at ran
    cases first : protectFd ndebug nullfd state number with
    | error exn =>
      rw [first] at ran
      cases ran
    | ok between =>
      rw [first] at ran
      obtain ⟨fills, taken⟩ := protectFd_fills (below number List.mem_cons_self) limit null first
      obtain ⟨later, rest⟩ := ih (fun other member => below other (List.mem_cons_of_mem _ member)) (fills.limit.symm ▸ limit)
        (fills.kept null) ran
      refine ⟨fills.trans later, fun other member => ?_⟩
      rcases List.mem_cons.mp member with rfl | inner
      · obtain ⟨owner, bound⟩ := Option.ne_none_iff_exists'.mp taken
        rw [later.kept bound]
        nofun
      · exact rest other inner

theorem Books.fills (books : Books limits [] internal kernel) (fills : Fills limits kernel.table table) :
    Books limits [] internal { kernel with table } := by
  refine books.agree fills.limit fills.above fun fd id below bound => ?_
  exact absurd below (Int.not_lt.mpr ((books.recorded (fills.library bound)).resolve_right List.not_mem_nil).1)

theorem mem_userFds {number : Nat} : number ∈ userFds limits ↔ (number : Int) < limits.minInternalFd := by
  have lower := @minInternalFd_nonneg limits
  rw [userFds, List.mem_range]
  omega

/-- The bits of the context do not depend on whether descriptors are relocated. -/
theorem Books.relocate (books : Books limits [] internal kernel) (moves : Bool) :
    Books limits [] { internal with internalFdsMustRelocate := moves } kernel :=
  { books with free := books.free, unbound := books.unbound, placed := nofun }

theorem Sound.protectUserFds (sound : Sound limits session) {guarded : Session φ}
    (ran : session.protectUserFds limits ndebug = .ok guarded) : Sound limits guarded := by
  rw [Session.protectUserFds] at ran
  split at ran
  next =>
    rw [assertThat] at ran
    split at ran <;> cases ran
  next nullfd table installed =>
    obtain ⟨unbound, valid, rfl⟩ := FdTable.install_ok installed
    by_cases high : limits.minInternalFd ≤ nullfd
    · rw [if_pos high] at ran
      cases ran
    · rw [if_neg high] at ran
      have fills := fills_bind (Int.not_le.mp high) unbound valid
      have null : (session.kernel.table.bind nullfd .guard valid).get nullfd = some .guard := by rw [FdTable.get_bind, if_pos rfl]
      cases looped : (userFds limits).foldlM (protectFd ndebug nullfd)
          (session.kernel.table.bind nullfd .guard valid, Function.update session.protectedFds nullfd.toNat true) with
      | error exn =>
        simp only [looped, Bind.bind, Except.bind] at ran
        cases ran
      | ok result =>
        simp only [looped, Bind.bind, Except.bind, pure, Except.pure] at ran
        cases ran
        obtain ⟨later, taken⟩ := foldlM_protectFd (fun number member => mem_userFds.mp member) sound.books.limit null looped
        refine ⟨(sound.books.fills (fills.trans later)).relocate false, fun _ fd natural below => ?_, iff_of_true rfl rfl⟩
        obtain ⟨number, rfl⟩ := Int.eq_ofNat_of_zero_le natural
        exact taken number (mem_userFds.mpr below)

/-- Some numbers below the internal range are given up. -/
theorem Books.unbind_user (books : Books limits [] internal kernel) (below : fd < limits.minInternalFd) :
    Books limits [] internal { kernel with table := kernel.table.unbind fd } := by
  refine books.agree rfl (fun other above => ?_) fun other id under bound => ?_
  · rw [FdTable.get_unbind, if_neg fun same : other = fd => absurd below (Int.not_lt.mpr (same ▸ above))]
  · have inside := (books.recorded (get_unbind_library.mp bound).2).resolve_right List.not_mem_nil
    exact absurd under (Int.not_lt.mpr inside.1)

theorem Books.close_user (books : Books limits [] internal kernel) (below : fd < limits.minInternalFd) :
    Books limits [] internal { kernel with table := (kernel.table.close fd).2 } := by
  rw [FdTable.close]
  split
  next => exact books
  next => exact books.unbind_user below

theorem Books.unprotect (books : Books limits [] internal kernel) {numbers : List Nat} {marked : Nat → Bool}
    (below : ∀ number ∈ numbers, (number : Int) < limits.minInternalFd) :
    Books limits [] internal { kernel with
      table := numbers.foldl (fun table fd => if marked fd then (table.close fd).2 else table) kernel.table } := by
  induction numbers generalizing kernel with
  | nil => exact books
  | cons number numbers ih =>
    have rest : ∀ other ∈ numbers, (other : Int) < limits.minInternalFd := fun other member => below other (List.mem_cons_of_mem _ member)
    rw [List.foldl_cons]
    split
    next => exact @ih { kernel with table := (kernel.table.close number).2 } (books.close_user (below number List.mem_cons_self)) rest
    next => exact ih books rest

theorem Sound.unprotectUserFds (sound : Sound limits session) : Sound limits (session.unprotectUserFds limits) :=
  ⟨(sound.books.unprotect fun _ member => mem_userFds.mp member).relocate true, nofun, iff_of_false nofun nofun⟩

end GekkoFwd.Proofs.InternalDescriptors
