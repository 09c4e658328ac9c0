import GekkoFwd.FdHooks
import GekkoFwd.Proofs.FdAllocation

/-! The two descriptor tables behind the hooks, seen as one. They act as a single POSIX
table as long as no number is bound in both, which no hook sees to. -/

namespace GekkoFwd.Proofs.DescriptorHooks
open FdHooks FdAllocation

/-- A call on descriptors; what is opened may be a file of either side. -/
inductive Call (φ κ : Type) where
  | openat (file : φ ⊕ κ)
  | close (fd : Int)
  | dup (fd : Int)
  | dup2 (oldfd newfd : Int)

variable {φ κ : Type} {limits : FdLimits} {process after : Process φ κ} {fd oldfd newfd result : Int}

namespace Call

/-- Nothing when the hook does not return. -/
def run (limits : FdLimits) (process : Process φ κ) : Call φ κ → Option (Int × Process φ κ)
  | .openat (.inl file) => hookOpenatInternal process file
  | .openat (.inr file) => some (hookOpenatExternal process file)
  | .close fd => hookClose limits process fd
  | .dup fd => hookDup process fd
  | .dup2 oldfd newfd => some (hookDup2 process oldfd newfd)

/-- What the call does to a single table: a descriptor that it returns was free, and a
call that fails changes nothing. -/
def Posix (before after : Int → Option (φ ⊕ κ)) (result : Int) : Call φ κ → Prop
  | .openat file =>
    if 0 ≤ result then before result = none ∧ after = Function.update before result (some file) else after = before
  | .dup oldfd =>
    if 0 ≤ result then ∃ file, before oldfd = some file ∧ before result = none ∧ after = Function.update before result (some file)
    else after = before
  | .dup2 oldfd newfd =>
    if 0 ≤ result then result = newfd ∧ ∃ file, before oldfd = some file ∧ after = Function.update before newfd (some file)
    else after = before
  | .close fd =>
    if 0 ≤ result then result = 0 ∧ (∃ file, before fd = some file) ∧ after = Function.update before fd none
    else before fd = none ∧ after = before

end Call

/-- The open file behind a number: the map comes first. -/
def view (process : Process φ κ) (fd : Int) : Option (φ ⊕ κ) :=
  match process.fileMap.get fd with
  | some file => some (.inl file)
  | none => (process.kernel.get fd).map .inr

/-- The next number of one side is not bound on the other. -/
def FreeInKernel (process : Process φ κ) : Prop :=
  ∀ fd, Upcoming process.fileMap fd → process.fileMap.get fd = none → process.kernel.get fd = none

def FreeInMap (process : Process φ κ) : Prop := ∀ fd, process.kernel.lowest = some fd → process.fileMap.get fd = none

/-- What keeps the two tables apart. -/
def Call.Apart (limits : FdLimits) (process : Process φ κ) : Call φ κ → Prop
  | .openat (.inl _) => FreeInKernel process
  | .openat (.inr _) => FreeInMap process
  | .dup fd => if process.fileMap.exist fd then FreeInKernel process else FreeInMap process
  | .dup2 oldfd newfd =>
    if process.fileMap.exist oldfd then
      0 ≤ newfd ∧ process.kernel.get newfd = none ∧ Careful process.fileMap oldfd newfd
    else process.fileMap.get newfd = none
  | .close fd => process.fileMap.exist fd ∨ process.internal.isInternalFd limits fd = .ok false

/-- The processes that calls of the given kind lead to, from an empty map. -/
inductive Reached (limits : FdLimits) (admitted : Process φ κ → Call φ κ → Prop) : Process φ κ → Prop where
  | start (kernel : FdTable κ) (internal : InternalFds) (errno : Int) : Reached limits admitted ⟨.empty, kernel, internal, errno⟩
  | call {process after : Process φ κ} {call : Call φ κ} {result : Int} (before : Reached limits admitted process)
      (admits : admitted process call) (returned : call.run limits process = some (result, after)) : Reached limits admitted after

/-- No number is bound on both sides. -/
structure Separate (process : Process φ κ) : Prop where
  sound : Sound process.fileMap
  apart : ∀ fd, process.fileMap.get fd ≠ none → process.kernel.get fd = none

theorem separate_start (kernel : FdTable κ) (internal : InternalFds) (errno : Int) :
    Separate (⟨.empty, kernel, internal, errno⟩ : Process φ κ) :=
  ⟨sound_empty, fun fd bound => absurd (AList.lookup_empty fd) bound⟩

/-! A change of one binding on one side. -/

section Changes
variable {file : Option φ} {other : Option κ} {fileMap : OpenFileMap φ} {kernel : FdTable κ} {errno : Int}

theorem view_map (now : ∀ number, fileMap.get number = if number = fd then file else process.fileMap.get number)
    (free : process.kernel.get fd = none) :
    view { process with fileMap } = Function.update (view process) fd (file.map .inl) := by
  funext number
  rw [view, now]
  by_cases same : number = fd
  · subst same
    rw [if_pos rfl, Function.update_self, free]
    cases file <;> rfl
  · rw [if_neg same, Function.update_of_ne same, view]

theorem view_kernel (now : ∀ number, kernel.get number = if number = fd then other else process.kernel.get number)
    (free : process.fileMap.get fd = none) :
    view { process with kernel } = Function.update (view process) fd (other.map .inr) := by
  funext number
  rw [view, now]
  by_cases same : number = fd
  · subst same
    rw [if_pos rfl, Function.update_self, free]
  · rw [if_neg same, Function.update_of_ne same, view]

theorem Separate.setMap (separate : Separate process) (sound : Sound fileMap)
    (now : ∀ number, fileMap.get number = if number = fd then file else process.fileMap.get number)
    (free : process.kernel.get fd = none) : Separate { process with fileMap } := by
  refine ⟨sound, fun number bound => ?_⟩
  rw [now] at bound
  split at bound
  next same => rw [same, free]
  next => exact separate.apart number bound

theorem Separate.setKernel (separate : Separate process)
    (now : ∀ number, kernel.get number = if number = fd then other else process.kernel.get number)
    (free : process.fileMap.get fd = none) : Separate { process with kernel } := by
  refine ⟨separate.sound, fun number bound => ?_⟩
  have different : number ≠ fd := fun same => bound (by rw [same, free])
  rw [now, if_neg different]
  exact separate.apart number bound

end Changes

section Hooks

theorem withErrno_of_nonneg (process : Process φ κ) (valid : 0 ≤ fd) : withErrno process fd = fd := by
  rw [withErrno, if_neg (Int.not_lt.mpr valid)]

/-- A file is added to the map. -/
theorem Separate.add (separate : Separate process) (free : FreeInKernel process) {file : φ} {fileMap : OpenFileMap φ}
    (added : process.fileMap.add file = some (fd, fileMap)) :
    0 ≤ fd ∧ view process fd = none ∧ Separate { process with fileMap } ∧
      view { process with fileMap } = Function.update (view process) fd (some (.inl file)) := by
  obtain ⟨allocates, sound⟩ := separate.sound.add added
  have upcoming := separate.sound.add_upcoming added
  have unbound := free fd upcoming allocates.unbound
  have now : ∀ number, fileMap.get number = if number = fd then some file else process.fileMap.get number := by
    intro number
    by_cases same : number = fd
    · rw [if_pos same, same, allocates.bound]
    · rw [if_neg same, allocates.others number same]
  refine ⟨Int.le_trans (by decide) (upcoming.least separate.sound), ?_, separate.setMap sound now unbound, view_map now unbound⟩
  rw [view, allocates.unbound, unbound]
  rfl

/-- The kernel makes a descriptor, or has none left. -/
theorem Separate.install (separate : Separate process) (free : FreeInMap process) (file : κ) :
    noIntercept process (process.kernel.install file) = (-FdTable.emfile, process) ∨
      ∃ fd after, noIntercept process (process.kernel.install file) = (fd, after) ∧ 0 ≤ fd ∧ view process fd = none ∧
        Separate after ∧ view after = Function.update (view process) fd (some (.inr file)) := by
  rcases process.kernel.install_cases file with ⟨_, full⟩ | ⟨fd, kernel, lowest, valid, unbound, installed, now⟩
  · exact .inl (by rw [full, noIntercept])
  · have apart := free fd lowest
    refine .inr ⟨fd, { process with kernel }, by rw [installed, noIntercept], valid, ?_, separate.setKernel now apart,
      view_kernel now apart⟩
    rw [view, apart, unbound]
    rfl

theorem view_inl {file : φ} (bound : process.fileMap.get fd = some file) : view process fd = some (.inl file) := by
  rw [view, bound]

theorem view_inr (unbound : process.fileMap.get fd = none) : view process fd = (process.kernel.get fd).map .inr := by
  rw [view, unbound]

theorem get_of_exist (bound : process.fileMap.exist fd = true) : ∃ file, process.fileMap.get fd = some file :=
  Option.isSome_iff_exists.mp bound

theorem get_of_not_exist (unbound : ¬process.fileMap.exist fd = true) : process.fileMap.get fd = none :=
  Option.not_isSome_iff_eq_none.mp unbound

theorem Separate.openat (separate : Separate process) {file : φ ⊕ κ} (apart : (Call.openat file).Apart limits process)
    (returned : (Call.openat file).run limits process = some (result, after)) :
    Separate after ∧ (Call.openat file).Posix (view process) (view after) result := by
  cases file with
  | inl file =>
    obtain ⟨⟨fd, fileMap⟩, added, same⟩ := Option.map_eq_some_iff.mp returned
    obtain ⟨valid, free, kept, now⟩ := separate.add apart added
    dsimp only at same
    rw [withErrno_of_nonneg process valid] at same
    cases same
    refine ⟨kept, ?_⟩
    rw [Call.Posix, if_pos valid]
    exact ⟨free, now⟩
  | inr file =>
    have ran := Option.some.inj returned
    rcases separate.install apart file with full | ⟨fd, _, installed, valid, free, kept, now⟩
    · cases full.symm.trans ran
      exact ⟨separate, rfl⟩
    · cases installed.symm.trans ran
      refine ⟨kept, ?_⟩
      rw [Call.Posix, if_pos valid]
      exact ⟨free, now⟩

theorem Separate.dup (separate : Separate process) (apart : (Call.dup oldfd).Apart limits process)
    (returned : (Call.dup oldfd : Call φ κ).run limits process = some (result, after)) :
    Separate after ∧ (Call.dup oldfd).Posix (view process) (view after) result := by
  rw [Call.run, hookDup] at returned
  rw [Call.Apart] at apart
  by_cases known : process.fileMap.exist oldfd = true
  · rw [if_pos known] at returned apart
    obtain ⟨file, bound⟩ := get_of_exist known
    rw [dup_eq_add bound, Option.map_map] at returned
    obtain ⟨⟨fd, fileMap⟩, added, same⟩ := Option.map_eq_some_iff.mp returned
    obtain ⟨valid, free, kept, now⟩ := separate.add apart added
    simp only [Function.comp_apply, withErrno_of_nonneg process valid] at same
    cases same
    refine ⟨kept, ?_⟩
    rw [Call.Posix, if_pos valid]
    exact ⟨_, view_inl bound, free, now⟩
  · rw [if_neg known] at returned apart
    have unbound := view_inr (get_of_not_exist known)
    have ran := Option.some.inj returned
    rw [FdTable.dup] at ran
    cases bound : process.kernel.get oldfd with
    | none =>
      rw [bound] at ran
      cases ran
      exact ⟨separate, rfl⟩
    | some file =>
      rw [bound] at ran unbound
      rcases separate.install apart file with full | ⟨fd, _, installed, valid, free, kept, now⟩
      · cases full.symm.trans ran
        exact ⟨separate, rfl⟩
      · cases installed.symm.trans ran
        refine ⟨kept, ?_⟩
        rw [Call.Posix, if_pos valid]
        exact ⟨_, unbound, free, now⟩

theorem Separate.dup2 (separate : Separate process) (apart : (Call.dup2 oldfd newfd).Apart limits process)
    (returned : (Call.dup2 oldfd newfd : Call φ κ).run limits process = some (result, after)) :
    Separate after ∧ (Call.dup2 oldfd newfd).Posix (view process) (view after) result := by
  have ran := Option.some.inj returned
  rw [hookDup2] at ran
  rw [Call.Apart] at apart
  by_cases known : process.fileMap.exist oldfd = true
  · rw [if_pos known] at ran apart
    obtain ⟨valid, free, careful⟩ := apart
    obtain ⟨file, bound⟩ := get_of_exist known
    by_cases same : oldfd = newfd
    · subst same
      simp only [OpenFileMap.dup2, bound, if_true, withErrno_of_nonneg process valid] at ran
      cases ran
      refine ⟨separate, ?_⟩
      rw [Call.Posix, if_pos valid]
      exact ⟨rfl, _, view_inl bound, by rw [← view_inl bound, Function.update_eq_self]⟩
    · obtain ⟨fileMap, duplicated, _, now, _⟩ := dup2_bound bound same
      have sound : Sound (process.fileMap.dup2 oldfd newfd).2 := separate.sound.dup2 careful
      rw [duplicated] at ran sound
      simp only [withErrno_of_nonneg process valid] at ran
      cases ran
      refine ⟨separate.setMap sound now free, ?_⟩
      rw [Call.Posix, if_pos valid]
      exact ⟨rfl, _, view_inl bound, view_map now free⟩
  · rw [if_neg known] at ran apart
    have old := view_inr (get_of_not_exist known)
    rw [FdTable.dup2] at ran
    cases bound : process.kernel.get oldfd with
    | none =>
      rw [bound] at ran
      cases ran
      exact ⟨separate, rfl⟩
    | some file =>
      rw [bound] at ran old
      by_cases same : oldfd = newfd
      · subst same
        simp only [if_true] at ran
        cases ran
        refine ⟨separate, ?_⟩
        rw [Call.Posix, if_pos (FdTable.range_of_get bound).1]
        exact ⟨rfl, _, old, by rw [← Option.map_some, ← bound, ← view_inr apart, Function.update_eq_self]⟩
      · by_cases valid : 0 ≤ newfd ∧ newfd < process.kernel.limit
        · simp only [if_neg same, dif_pos valid] at ran
          cases ran
          refine ⟨separate.setKernel (fun _ => FdTable.get_bind) apart, ?_⟩
          rw [Call.Posix, if_pos valid.1]
          exact ⟨rfl, _, old, view_kernel (fun _ => FdTable.get_bind) apart⟩
        · simp only [if_neg same, dif_neg valid] at ran
          cases ran
          exact ⟨separate, rfl⟩

theorem Separate.close (separate : Separate process) (apart : (Call.close fd).Apart limits process)
    (returned : (Call.close fd : Call φ κ).run limits process = some (result, after)) :
    Separate after ∧ (Call.close fd).Posix (view process) (view after) result := by
  rw [Call.run, hookClose] at returned
  by_cases known : process.fileMap.exist fd = true
  · rw [if_pos known] at returned
    cases returned
    obtain ⟨file, bound⟩ := get_of_exist known
    have free := separate.apart fd (by rw [bound]; exact nofun)
    have now := get_remove process.fileMap fd
    exact ⟨separate.setMap (separate.sound.remove fd) now free, rfl, ⟨_, view_inl bound⟩, view_map now free⟩
  · have unknown := get_of_not_exist known
    rw [if_neg known, apart.resolve_left known] at returned
    have ran := Option.some.inj returned
    rw [FdTable.close] at ran
    have old := view_inr unknown
    cases bound : process.kernel.get fd with
    | none =>
      rw [bound] at ran old
      cases ran
      exact ⟨separate, old, rfl⟩
    | some file =>
      rw [bound] at ran old
      cases ran
      have now : ∀ number, (process.kernel.unbind fd).get number = if number = fd then none else process.kernel.get number :=
        fun _ => FdTable.get_unbind
      exact ⟨separate.setKernel now unknown, rfl, ⟨_, old⟩, view_kernel now unknown⟩

theorem Separate.call (separate : Separate process) {call : Call φ κ} (apart : call.Apart limits process)
    (returned : call.run limits process = some (result, after)) :
    Separate after ∧ call.Posix (view process) (view after) result := by
  cases call with
  | openat file => exact separate.openat apart returned
  | close fd => exact separate.close apart returned
  | dup fd => exact separate.dup apart returned
  | dup2 oldfd newfd => exact separate.dup2 apart returned

end Hooks

theorem Reached.separate (reached : Reached limits (fun process call => call.Apart limits process) process) : Separate process := by
  induction reached with
  | start kernel internal errno => exact separate_start kernel internal errno
  | call _ apart returned ih => exact (ih.call apart returned).1

/-- The hooks act on both tables as on a single one, as long as every call keeps them
apart. -/
theorem posix_of_apart_calls (reached : Reached limits (fun process call => call.Apart limits process) process)
    {call : Call φ κ} (apart : call.Apart limits process) (returned : call.run limits process = some (result, after)) :
    call.Posix (view process) (view after) result ∧
      ∀ fd, call = .close fd → result = 0 → after.fileMap.get fd = none ∧ after.kernel.get fd = none := by
  obtain ⟨_, posix⟩ := reached.separate.call apart returned
  refine ⟨posix, ?_⟩
  rintro fd rfl rfl
  obtain ⟨_, _, now⟩ := posix
  have closed : view after fd = none := by rw [now, Function.update_self]
  rw [view] at closed
  split at closed
  next => cases closed
  next unbound => exact ⟨unbound, Option.map_eq_none_iff.mp closed⟩

/-- Standard output is redirected to a file of the mount directory and closed, and is
still open in the kernel. -/
theorem close_after_redirect : ∃ (limits : FdLimits) (process after : Process Char Char),
    Reached limits (fun _ _ => True) process ∧ hookClose limits process 1 = some (0, after) ∧ after.kernel.get 1 = some 'o' := by
  have started : Reached .usual (fun (_ : Process Char Char) _ => True) _ :=
    .start ((FdTable.empty 1024).bind 1 'o' (by decide)) .initial 0
  have opened := @Reached.call Char Char _ _ _ _ (.openat (.inl 'f')) 10000 started trivial rfl
  have redirected := @Reached.call Char Char _ _ _ _ (.dup2 10000 1) 1 opened trivial rfl
  exact ⟨_, _, _, redirected, rfl, rfl⟩

/-- The same redirection while nothing is open in the kernel. -/
theorem posix_of_apart_calls_redirect : ∃ process after : Process Char Char,
    hookDup2 process 10000 1 = (1, after) ∧ (Call.dup2 10000 1).Posix (view process) (view after) 1 := by
  have started : Reached .usual (fun (process : Process Char Char) call => call.Apart .usual process) _ :=
    .start (FdTable.empty 1024) .initial 0
  have opened := @Reached.call Char Char _ _ _ _ (.openat (.inl 'f')) 10000 started (fun _ _ _ => rfl) rfl
  exact ⟨_, _, rfl, (@posix_of_apart_calls Char Char _ _ _ 1 opened (.dup2 10000 1)
    ⟨by decide, rfl, fun _ _ _ _ => by decide⟩ rfl).1⟩

end GekkoFwd.Proofs.DescriptorHooks
