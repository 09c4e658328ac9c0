import GekkoFwd.Proofs.InternalBookkeeping

/-! What the library knows about its descriptors at any time of a run, from the
construction of its context on. -/

namespace GekkoFwd.Proofs.InternalDescriptors
open Session

variable {limits : FdLimits} {ndebug : Bool} {fd : Int} {φ : Type} {session after : Session φ} {action : Action φ}

/-- What the library has at a number, it has made and not closed. -/
def Live (session : Session φ) (fd : Int) : Prop :=
  ∃ id, (id < session.kernel.created ∧ id ∉ session.kernel.closed) ∧ session.kernel.table.get fd = some (.library id)

theorem Sound.live_iff (sound : Sound limits session) : Live session fd ↔ ∃ id, session.kernel.table.get fd = some (.library id) :=
  ⟨fun ⟨id, _, bound⟩ => ⟨id, bound⟩, fun ⟨id, bound⟩ => ⟨id, (sound.books.live id).mpr ⟨fd, bound⟩, bound⟩⟩

/-- The bits tell the library's descriptors from all other numbers that have one. -/
theorem Sound.isInternalFd (sound : Sound limits session) (below : fd < limits.maxOpenFds) :
    ∃ answer, session.internal.isInternalFd limits fd = .ok answer ∧ (answer = true ↔ Live session fd) := by
  rw [sound.live_iff]
  by_cases low : fd < limits.minInternalFd
  · refine ⟨false, isInternalFd_below low, iff_of_false nofun ?_⟩
    rintro ⟨id, bound⟩
    exact absurd low (Int.not_lt.mpr ((sound.books.recorded bound).resolve_right List.not_mem_nil).1)
  · have inside : Internal limits fd := ⟨Int.not_lt.mp low, below⟩
    refine ⟨_, isInternalFd_internal inside, ?_⟩
    cases bound : session.kernel.table.get fd with
    | none => simp [sound.books.unbound inside bound]
    | some owner =>
      obtain ⟨id, rfl⟩ := sound.books.foreign inside.1 bound
      refine iff_of_true ?_ ⟨id, rfl⟩
      rw [Bool.not_eq_true', Bool.eq_false_iff]
      intro marked
      exact absurd (bound.symm.trans ((sound.books.free inside marked).resolve_right List.not_mem_nil)) nofun

theorem Sound.hookClose_ne_none (sound : Sound limits session) (asked : fd < limits.maxOpenFds ∨ session.fileMap.exist fd = true) :
    FdHooks.hookClose limits session.process fd ≠ none := by
  rw [FdHooks.hookClose]
  split
  next => nofun
  next unknown =>
    obtain ⟨answer, ran, _⟩ := sound.isInternalFd (asked.resolve_right unknown)
    simp only [Session.process, ran]
    cases answer <;> nofun

/-- What may happen at all: `init_preload` runs once, the application runs after it, and
its descriptors stay below the internal range. -/
def Environment (limits : FdLimits) (session : Session φ) : Action φ → Prop
  | .internal _ _ => True
  | .protectUserFds => session.phase = .constructed
  | .unprotectUserFds => session.phase = .guarded
  | .close _ | .files _ => session.phase = .running
  | .bind fd => session.phase = .running ∧ fd < limits.minInternalFd

/-- The states of a process whose calls are all allowed. -/
inductive Reachable (limits : FdLimits) (ndebug : Bool) (allowed : Session φ → Syscall → Prop) : Session φ → Prop
  | start {fileMap : OpenFileMap φ} {table : FdTable Owner} (limit : limits.maxOpenFds ≤ table.limit)
      (user : ∀ fd owner, table.get fd = some owner → owner = .application ∧ fd < limits.minInternalFd) :
      Reachable limits ndebug allowed (.initial fileMap table)
  | step {session after : Session φ} {action : Action φ} (before : Reachable limits ndebug allowed session)
      (environment : Environment limits session action)
      (calls : ∀ call refusal, action = .internal call refusal → allowed session call)
      (ran : session.act limits ndebug action = .ok after) : Reachable limits ndebug allowed after

theorem sound_initial {fileMap : OpenFileMap φ} {table : FdTable Owner} (limit : limits.maxOpenFds ≤ table.limit)
    (user : ∀ fd owner, table.get fd = some owner → owner = .application ∧ fd < limits.minInternalFd) :
    Sound limits (.initial fileMap table) := by
  have none : ∀ {fd id}, table.get fd ≠ some (.library id) := fun bound => absurd (user _ _ bound).1 nofun
  have vacant : ∀ {fd}, limits.minInternalFd ≤ fd → table.get fd = .none := by
    intro fd above
    refine Option.eq_none_iff_forall_ne_some.mpr fun owner bound => ?_
    exact absurd (user _ _ bound).2 (Int.not_lt.mpr above)
  refine ⟨⟨⟨fun id => ?_, nofun, fun bound => absurd bound none⟩, limit, fun inside _ => .inl (vacant inside.1), fun _ _ => rfl,
    fun bound => absurd bound none, fun above bound => absurd ((vacant above).symm.trans bound) nofun, nofun, nofun, List.nodup_nil⟩,
    nofun, iff_of_false nofun nofun⟩
  exact iff_of_false (fun alive => absurd alive.1 (Nat.not_lt_zero _)) fun ⟨_, bound⟩ => none bound

/-- The application's files and the numbers below the internal range. -/
theorem Sound.user (sound : Sound limits session) (running : session.phase = .running) {fileMap : OpenFileMap φ} {table : FdTable Owner}
    (books : Books limits [] session.internal { session.kernel with table }) :
    Sound limits { session with fileMap, kernel := { session.kernel with table } } := by
  refine ⟨books, fun kept => ?_, sound.phase⟩
  exact absurd (sound.phase.mpr kept) (by simp [running])

theorem noIntercept_snd (process : Process φ Owner) (answered : Except Int Int × FdTable Owner) :
    (FdHooks.noIntercept process answered).2 = { process with kernel := answered.2 } := by
  obtain ⟨result, table⟩ := answered
  cases result <;> rfl

theorem Books.bind_user {internal : InternalFds} {kernel : Kernel} (books : Books limits [] internal kernel)
    (below : fd < limits.minInternalFd) (valid : 0 ≤ fd ∧ fd < kernel.table.limit) :
    Books limits [] internal { kernel with table := kernel.table.bind fd .application valid } := by
  refine books.agree rfl (fun other above => ?_) fun other id under bound => ?_
  · rw [FdTable.get_bind, if_neg fun same : other = fd => absurd below (Int.not_lt.mpr (same ▸ above))]
  · rw [FdTable.get_bind] at bound
    split at bound
    next => cases bound
    next => exact absurd under (Int.not_lt.mpr ((books.recorded bound).resolve_right List.not_mem_nil).1)

/-- A number that is not the library's is closed in the kernel. -/
theorem Sound.close_foreign (sound : Sound limits session) (foreign : session.internal.isInternalFd limits fd = .ok false) :
    Books limits [] session.internal { session.kernel with table := (session.kernel.table.close fd).2 } := by
  by_cases low : fd < limits.minInternalFd
  · exact sound.books.close_user low
  · have below : fd < limits.maxOpenFds := by
      refine Int.not_le.mp fun above => ?_
      rw [isInternalFd_above above] at foreign
      cases foreign
    obtain ⟨answer, answered, live⟩ := sound.isInternalFd below
    cases foreign.symm.trans answered
    rw [FdTable.close]
    split
    next => exact sound.books
    next owner bound =>
      obtain ⟨id, rfl⟩ := sound.books.foreign (Int.not_lt.mp low) bound
      cases live.mpr (sound.live_iff.mpr ⟨id, bound⟩)

theorem Sound.hookClose (sound : Sound limits session) (running : session.phase = .running)
    (ran : session.act limits ndebug (.close fd) = .ok after) : Sound limits after := by
  rw [Session.act, FdHooks.hookClose] at ran
  by_cases known : session.process.fileMap.exist fd = true
  · rw [if_pos known] at ran
    cases ran
    exact sound.user running sound.books
  · rw [if_neg known] at ran
    cases answered : session.process.internal.isInternalFd limits fd with
    | error exn =>
      rw [answered] at ran
      cases ran
    | ok answer =>
      rw [answered] at ran
      cases answer with
      | true =>
        cases ran
        exact sound
      | false =>
        simp only [noIntercept_snd] at ran
        cases ran
        exact sound.user running (sound.close_foreign answered)

theorem Sound.act (sound : Sound limits session) (environment : Environment limits session action)
    (calls : ∀ call refusal, action = .internal call refusal → Served limits session call)
    (ran : session.act limits ndebug action = .ok after) : Sound limits after := by
  cases action with
  | internal call refusal =>
    rw [Session.act] at ran
    cases handled : session.hookInternal limits ndebug call refusal with
    | error exn =>
      rw [handled] at ran
      cases ran
    | ok answered =>
      rw [handled] at ran
      cases ran
      by_cases closing : ∃ fd, call = .sysClose fd
      · obtain ⟨fd, rfl⟩ := closing
        exact (sound.close handled).1
      · obtain ⟨_, _, same, kept, _⟩ := sound.handles (not_exists.mp closing) (calls call refusal rfl) refusal
        cases same.symm.trans handled
        exact kept
  | protectUserFds => exact sound.protectUserFds ran
  | unprotectUserFds =>
    cases ran
    exact sound.unprotectUserFds
  | close fd => exact sound.hookClose environment ran
  | bind fd =>
    rw [Session.act] at ran
    split at ran
    next valid =>
      cases ran
      exact sound.user environment.1 (sound.books.bind_user environment.2 valid)
    next =>
      cases ran
      exact sound
  | files fileMap =>
    cases ran
    exact sound.user environment sound.books

theorem sound_of_reachable (reachable : Reachable limits ndebug (Served limits) session) : Sound limits session := by
  induction reachable with
  | start limit user => exact sound_initial limit user
  | step before environment calls ran sound => exact sound.act environment calls ran

/-- What the library relies on: each of its descriptors has one number in the internal
range, `is_internal_fd` tells which numbers these are, its calls are handled, and no
`close` raises an exception. The numbers that are asked about and the calls are up to
the caller. -/
structure Bookkeeping (limits : FdLimits) (ndebug : Bool) (asked : Int → Prop) (calls : Session φ → Syscall → Prop)
    (session : Session φ) : Prop where
  recorded : ∀ id, id < session.kernel.created → id ∉ session.kernel.closed →
    ∃ fd, Internal limits fd ∧ session.internal.isInternalFd limits fd = .ok true ∧
      ∀ other, session.kernel.table.get other = some (.library id) ↔ other = fd
  isInternalFd : ∀ fd, asked fd →
    ∃ answer, session.internal.isInternalFd limits fd = .ok answer ∧ (answer = true ↔ Live session fd)
  handled : ∀ call refusal, (∀ fd, call ≠ .sysClose fd) → calls session call →
    ∃ answer after, session.hookInternal limits ndebug call refusal = .ok (answer, after) ∧
      ∀ fds, answer = .ok fds → ∀ fd ∈ fds, Live after fd ∧ after.internal.isInternalFd limits fd = .ok true
  closes : ∀ fd, Live session fd → ∃ after, session.hookInternal limits ndebug (.sysClose fd) none = .ok (.ok [], after)
  hookCloses : ∀ fd, asked fd ∨ session.fileMap.exist fd = true → FdHooks.hookClose limits session.process fd ≠ none

theorem Sound.isInternalFd_live (sound : Sound limits session) (inside : Internal limits fd) {id : Nat}
    (bound : session.kernel.table.get fd = some (.library id)) : session.internal.isInternalFd limits fd = .ok true := by
  obtain ⟨answer, answered, live⟩ := sound.isInternalFd inside.2
  rw [answered, live.mpr (sound.live_iff.mpr ⟨id, bound⟩)]

/-- As long as the calls are served, the books are right about every number below `MAX_OPEN_FDS`. -/
theorem bookkeeping_of_served (reachable : Reachable limits ndebug (Served limits) session) :
    Bookkeeping limits ndebug (fun fd => fd < limits.maxOpenFds) (Served limits) session := by
  have sound := sound_of_reachable reachable
  refine ⟨fun id made open_ => ?_, fun fd => sound.isInternalFd, fun call refusal other served => ?_, fun fd live => ?_,
    fun fd => sound.hookClose_ne_none⟩
  · obtain ⟨fd, bound⟩ := (sound.books.live id).mp ⟨made, open_⟩
    have inside := (sound.books.recorded bound).resolve_right List.not_mem_nil
    refine ⟨fd, inside, sound.isInternalFd_live inside bound, fun other => ⟨fun again => sound.books.unique again bound, ?_⟩⟩
    rintro rfl
    exact bound
  · obtain ⟨answer, after, handled, kept, _, library⟩ := sound.handles other served refusal
    refine ⟨answer, after, handled, fun fds same fd member => ?_⟩
    obtain ⟨inside, id, bound⟩ := library fds same fd member
    exact ⟨kept.live_iff.mpr ⟨id, bound⟩, kept.isInternalFd_live inside bound⟩
  · obtain ⟨id, bound⟩ := sound.live_iff.mp live
    obtain ⟨after, closes, _⟩ := sound.closes ndebug bound
    exact ⟨after, closes⟩

/-- A process that has just been started, with no descriptor open. -/
def started (limit : Nat) : Session Unit := .initial .empty (.empty limit)

theorem reachable_started {limits : FdLimits} {allowed : Session Unit → Syscall → Prop} :
    Reachable limits ndebug allowed (started limits.maxOpenFds) :=
  .start (Nat.le_refl _) fun fd owner bound => absurd bound (by simp [FdTable.get, FdTable.empty])

/-- A build with few descriptors, where the library has opened a socket. -/
theorem bookkeeping_of_served_socket : ∃ session : Session Unit,
    Reachable ⟨16, 4, by decide⟩ true (Served ⟨16, 4, by decide⟩) session ∧ session.kernel.table.get 12 = some (.library 0) ∧
      Bookkeeping ⟨16, 4, by decide⟩ true (fun fd => fd < 16) (Served ⟨16, 4, by decide⟩) session := by
  have vacant : ∀ fd, (started 16).kernel.table.get fd = none := fun _ => rfl
  have served : Served ⟨16, 4, by decide⟩ (started 16) (.create .sysSocket) := by
    refine ⟨Finset.card_pos.mpr ⟨0, ?_⟩, fun _ => Finset.card_pos.mpr ⟨12, ?_⟩⟩
    · exact FdTable.mem_unbound.mpr ⟨by decide, vacant 0⟩
    · exact FdTable.mem_unbound.mpr ⟨by decide, vacant 12⟩
  have reachable := @Reachable.step Unit ⟨16, 4, by decide⟩ true _ _ _ (.internal (.create .sysSocket) none) reachable_started trivial
    (fun call refusal same => by cases same; exact served) rfl
  exact ⟨_, reachable, rfl, bookkeeping_of_served reachable⟩

/-- A `close` of a number that no bit stands for raises an exception. -/
theorem close_raises : ∃ session : Session Unit, Reachable .usual true (fun _ _ => True) session ∧
    ¬Bookkeeping .usual true (fun _ => True) (fun _ _ => True) session := by
  refine ⟨started 1024, @reachable_started true .usual _, fun books => books.hookCloses 1024 (.inl trivial) ?_⟩
  rfl

end GekkoFwd.Proofs.InternalDescriptors
