import GekkoFwd.Proofs.MergeLaws
import GekkoFwd.Proofs.TransferErrors

/-! How failures reach the application: the functions leave an error number in `errno`,
and the hooks return the negated value. -/

namespace GekkoFwd.Proofs.HookErrors
open RpcProgram ClientOps FileOps ErrorCodes TransferErrors

/-- The answer to the size query. -/
def sizeReply : List (Exchange Request) → Option (Int × Word)
  | ⟨.getMetadentrySize _, reply⟩ :: _ => reply
  | _ :: log => sizeReply log
  | [] => none

/-- No transfer into or out of the buffers fails or moves anything. -/
def Idle (file : OpenFile) (iov : List (List Byte)) (log : List (Exchange Request)) : Prop :=
  (∀ exchange ∈ log, idle exchange) ∧ (file.type = .regular ∨ ∀ buf ∈ iov, buf = [])

/-- The operation failed: it says so, or the size it is to seek from is unknown. -/
def Failed (call : HookCall) (log : List (Exchange Request)) (outcome : Outcome) : Prop :=
  outcome.ret < 0 ∨
    match call with
    | .lseek _ _ .seekEnd => ∃ err size, sizeReply log = some (err, size) ∧ err ≠ 0
    | _ => False

/-- What a failure must not depend on: codes that are no error numbers, and the value
that an earlier call has left in `errno`. -/
def Reports (stale : Int) (log : List (Exchange Request)) : HookCall → Prop
  | .openat _ _ _ _ | .mkdirat _ _ => ¬Refused log
  | .lseek _ offset .seekSet => 0 ≤ offset.toInt ∨ Errno.Valid stale
  | .lseek file offset .seekCur => 0 ≤ (file.pos + offset).toInt ∨ Errno.Valid stale
  | .lseek _ offset .seekEnd => ∃ err size, sizeReply log = some (err, size) ∧
      ((offset.slt 0 && size.slt (-offset)) = true ∨ if 0 ≤ (size + offset).toInt then err = 0 else Errno.Valid stale)
  | .readv file iov | .preadv file iov _ | .writev file iov | .pwritev file iov _ => ¬Idle file iov log ∨ Errno.Valid stale
  | .dup2 _ _ newfd => 0 ≤ newfd ∨ Errno.Valid stale
  | _ => True

/-- Buffers lie in memory, and descriptors are in the file map. -/
def WellFormed : HookCall → Prop
  | .read _ buf | .pread _ buf _ | .write _ buf | .pwrite _ buf _ => buf.length < 2 ^ 63
  | .readv _ iov | .preadv _ iov _ | .writev _ iov | .pwritev _ iov _ => (iov.map List.length).sum < 2 ^ 63
  | .dup map oldfd => map.exist oldfd ∧ 0 ≤ map.fdIdx
  | .dup2 map oldfd newfd => map.exist oldfd ∧ -2 ^ 31 ≤ newfd ∧ newfd < 2 ^ 31
  | _ => True

/-- The results of a system call that are errors. -/
def InRange (value : Int) : Prop := -4095 ≤ value ∧ value ≤ -1

/-- A failure of the operation is one to the application. -/
def Reported (call : HookCall) (stale : Int) (log : List (Exchange Request)) (outcome : Outcome) : Prop :=
  Failed call log outcome → InRange (call.result stale outcome)

section Hooks
variable {deployment : Deployment} {client : Client deployment} {stale : Int} {α : Type}

theorem inRange_neg {errno : Int} : InRange (-errno) ↔ Errno.Valid errno := by
  rw [InRange, Errno.Valid]
  omega

theorem withErrno_failed (errno : Int) : HookCall.withErrno errno (-1) = -errno := by
  rw [HookCall.withErrno, show (BitVec.ofInt 32 (-1)).toInt = -1 by decide]
  exact if_pos (by decide)

theorem ofResult_reported {value : α → Int} {result : SysResult α} (sane : Sane result) (success : ∀ v, result = .ok v → 0 ≤ value v)
    (failed : (Outcome.ofResult value result).ret < 0) :
    InRange (HookCall.withErrno ((Outcome.ofResult value result).errno.getD stale) (Outcome.ofResult value result).ret) := by
  cases result with
  | ok v => exact absurd failed (Int.not_lt.mpr (success v rfl))
  | error errno =>
    refine (withErrno_failed errno).symm ▸ inRange_neg.mpr ?_
    exact sane errno rfl

theorem ofResult_creating {value : α → Int} (success : ∀ v, 0 ≤ value v) {log : List (Exchange Request)} {result : SysResult α}
    (creating : Creating log result) :
    ((Outcome.ofResult value result).ret < 0 →
        InRange (HookCall.withErrno ((Outcome.ofResult value result).errno.getD stale) (Outcome.ofResult value result).ret)) ↔
      ¬Refused log := by
  rw [creating.2]
  cases result with
  | ok v => exact iff_of_true (fun failed => absurd failed (Int.not_lt.mpr (success v))) nofun
  | error errno =>
    have value : HookCall.withErrno errno (-1) = -errno := withErrno_failed errno
    simp only [Outcome.ofResult, Option.getD_some, value, inRange_neg, Except.error.injEq]
    rcases creating.1 errno rfl with valid | rfl
    · exact iff_of_true (fun _ => valid) fun same => by rw [same] at valid; exact absurd valid (by decide)
    · exact iff_of_false (fun reported => absurd (reported (by decide)) (by decide)) fun different => different rfl

theorem vectored_reported {file : OpenFile} {iov : List (List Byte)} (fits : (iov.map List.length).sum < 2 ^ 63)
    {log : List (Exchange Request)} {total : Word} {errno : Option Int}
    (moved : Vectored (file.type = .regular) iov 0 log total errno) :
    ((vectoredOutcome total errno).ret < 0 → InRange (HookCall.withErrno (errno.getD stale) (vectoredOutcome total errno).ret)) ↔
      ¬Idle file iov log ∨ Errno.Valid stale := by
  rw [Idle, ← moved.idle, vectoredOutcome]
  by_cases zero : total = 0
  · subst zero
    simp only [if_true, withErrno_failed, inRange_neg]
    cases errno with
    | none => simp
    | some value => exact iff_of_true (fun _ => moved.valid value rfl) (.inl fun same => by cases same.2)
  · simp only [if_neg zero]
    have most := moved.most
    have positive : 0 ≤ total.toInt := toInt_nonneg (Nat.le_refl _) (by simp at most; omega)
    exact iff_of_true (fun failed => absurd failed (Int.not_lt.mpr positive)) (.inl fun same => zero same.1)

theorem generateFdIdx_nonneg {φ : Type} {map : OpenFileMap φ} (start : 0 ≤ map.fdIdx) :
    0 ≤ map.generateFdIdx.1 ∧ 0 ≤ map.generateFdIdx.2.fdIdx := by
  rw [OpenFileMap.generateFdIdx]
  split
  next => exact ⟨Int.natCast_nonneg 100000, Int.natCast_nonneg 100001⟩
  next => exact ⟨start, Int.le_trans start (by simp)⟩

theorem dup_error {φ : Type} {map after : OpenFileMap φ} {oldfd errno : Int} (dup : map.dup oldfd = some (.error errno, after)) :
    errno = Errno.ebadf := by
  rw [OpenFileMap.dup] at dup
  split at dup
  next =>
    cases dup
    rfl
  next =>
    obtain ⟨added, _, same⟩ := Option.map_eq_some_iff.mp dup
    cases same

theorem dup2_ok {φ : Type} {map : OpenFileMap φ} {oldfd : Int} (open_ : map.exist oldfd) (newfd : Int) :
    (map.dup2 oldfd newfd).1 = .ok newfd := by
  obtain ⟨file, found⟩ := Option.isSome_iff_exists.mp open_
  simp only [OpenFileMap.dup2, found]
  split <;> rfl

/-- A result that a hook takes for a failure when it is negative. -/
theorem negative_reported (value : Int) :
    (value < 0 → InRange (if value < 0 then -stale else value)) ↔ 0 ≤ value ∨ Errno.Valid stale := by
  by_cases negative : value < 0
  · rw [if_pos negative, inRange_neg, or_iff_right (Int.not_le.mpr negative)]
    exact ⟨fun reported => reported negative, fun valid _ => valid⟩
  · exact iff_of_true (fun failed => absurd failed negative) (.inl (Int.not_lt.mp negative))

/-- A number of an `int` that `dup2` was asked for. -/
theorem descriptor_reported {newfd : Int} (least : -2 ^ 31 ≤ newfd) (most : newfd < 2 ^ 31) :
    (newfd < 0 → InRange (HookCall.withErrno stale newfd)) ↔ 0 ≤ newfd ∨ Errno.Valid stale := by
  have same : (BitVec.ofInt 32 newfd).toInt = newfd := by
    rw [BitVec.toInt_ofInt]
    exact Int.bmod_eq_of_le (by omega) (by omega)
  simp only [HookCall.withErrno, same]
  exact negative_reported newfd

theorem dup_nonneg {φ : Type} {map after : OpenFileMap φ} (start : 0 ≤ map.fdIdx) {oldfd fd : Int}
    (dup : map.dup oldfd = some (.ok fd, after)) : 0 ≤ fd := by
  rw [OpenFileMap.dup] at dup
  split at dup
  next => cases dup
  next =>
    obtain ⟨added, adding, same⟩ := Option.map_eq_some_iff.mp dup
    cases same
    obtain ⟨generated, found, rfl⟩ := Option.map_eq_some_iff.mp adding
    rw [OpenFileMap.safeGenerateFdIdx] at found
    split at found
    next =>
      exact (WhileLoop.run_partial (fun state : Int × OpenFileMap φ => 0 ≤ state.1 ∧ 0 ≤ state.2.fdIdx)
        (fun state positive _ => generateFdIdx_nonneg positive.2) (generateFdIdx_nonneg start) found).1.1
    next =>
      cases found
      exact (generateFdIdx_nonneg start).1

theorem ensures_forwardGetMetadentrySize {path : Str} : Ensures possible (forwardGetMetadentrySize client path) fun log result =>
    sizeReply log = none ∧ result = (-1, 0) ∨ sizeReply log = some result ∧ ¬result.1 < 0 := by
  refine ensures_call_bind fun reply passed => ?_
  cases reply with
  | none => exact .inl ⟨rfl, rfl⟩
  | some answer =>
    obtain ⟨err, size⟩ := answer
    have code : err = 0 ∨ (err = Errno.enoent ∨ err = Errno.ebusy) ∧ size = 0 := codes_call passed
    refine .inr ⟨rfl, ?_⟩
    rcases code with rfl | ⟨rfl | rfl, _⟩ <;> exact of_decide_eq_false rfl

theorem ensures_seekEnd (stale : Int) (file : OpenFile) (offset : Word) :
    Ensures possible (gkfsLseek client file offset .seekEnd) fun log result =>
      Reported (.lseek file offset .seekEnd) stale log result.1 ↔ Reports stale log (.lseek file offset .seekEnd) := by
  refine ensures_forwardGetMetadentrySize.bind ?_
  rintro log ⟨err, size⟩ (⟨missing, same⟩ | ⟨answered, positive⟩)
  · cases same
    simp [Ensures, Reported, Failed, HookCall.result, Reports, missing, InRange]
  · have condition : Reports stale log (.lseek file offset .seekEnd) ↔ (offset.slt 0 && size.slt (-offset)) = true ∨
        if 0 ≤ (size + offset).toInt then err = 0 else Errno.Valid stale := by
      rw [Reports, answered]
      constructor
      · rintro ⟨_, _, same, holds⟩
        cases same
        exact holds
      · exact fun holds => ⟨err, size, rfl, holds⟩
    have failing : ∀ outcome, Failed (.lseek file offset .seekEnd) log outcome ↔ outcome.ret < 0 ∨ err ≠ 0 := by
      intro outcome
      rw [Failed, answered]
      refine or_congr_right ⟨?_, fun failed => ⟨err, size, rfl, failed⟩⟩
      rintro ⟨_, _, same, failed⟩
      cases same
      exact failed
    simp only [if_neg positive]
    split
    next before =>
      simp only [Program.pure_eq, Ensures, List.append_nil]
      exact iff_of_true (fun _ => inRange_neg.mpr (show Errno.Valid Errno.einval by decide)) (condition.mpr (.inl before))
    next behind =>
      simp only [Program.pure_eq, Ensures, List.append_nil]
      rw [condition, or_iff_right behind, Reported, failing, HookCall.result]
      dsimp only [Option.getD_none]
      by_cases negative : (size + offset).toInt < 0
      · rw [if_pos negative, if_neg (Int.not_le.mpr negative), inRange_neg]
        exact ⟨fun reported => reported (.inl negative), fun valid _ => valid⟩
      · rw [if_neg negative, if_pos (Int.not_lt.mp negative), or_iff_right negative]
        refine ⟨fun reported => not_not.mp fun failed => ?_, fun fine failed => absurd fine failed⟩
        exact absurd (reported failed).2 (by omega)

theorem ensures_lseek (file : OpenFile) (offset : Word) (whence : Whence) :
    Ensures possible (HookCall.operation client (.lseek file offset whence)) fun log outcome =>
      Reported (.lseek file offset whence) stale log outcome ↔ Reports stale log (.lseek file offset whence) := by
  cases whence with
  | seekSet =>
    simpa [HookCall.operation, gkfsLseek, Ensures, Reported, Failed, HookCall.result, Reports] using negative_reported offset.toInt
  | seekCur =>
    simpa [HookCall.operation, gkfsLseek, Ensures, Reported, Failed, HookCall.result, Reports] using
      negative_reported (file.pos + offset).toInt
  | other => simp [HookCall.operation, gkfsLseek, Ensures, Reported, Failed, HookCall.result, Reports, InRange, Errno.einval]
  | seekEnd =>
    refine (ensures_seekEnd stale file offset).bind fun log result iff => ?_
    simp only [Program.pure_eq, Ensures, List.append_nil]
    exact iff

/-- Calls that have nothing to do with the conditions. -/
theorem ensures_plain {γ : Type} {call : HookCall} {program : Prog γ} {part : γ → SysResult α} {value : α → Int}
    (same : call.operation client = program.bind fun result => .pure (.ofResult value (part result)))
    (plain : ∀ log outcome, Failed call log outcome → outcome.ret < 0)
    (hook : ∀ outcome, call.result stale outcome = HookCall.withErrno (outcome.errno.getD stale) outcome.ret)
    (always : ∀ log, Reports stale log call)
    (ensures : Ensures possible program fun _ result => Sane (part result) ∧ ∀ v, part result = .ok v → 0 ≤ value v) :
    Ensures possible (call.operation client) fun log outcome => Reported call stale log outcome ↔ Reports stale log call := by
  rw [same]
  refine ensures.bind fun log result sane => ?_
  refine iff_of_true (fun failed => ?_) (always _)
  rw [hook]
  exact ofResult_reported sane.1 sane.2 (plain _ _ failed)

theorem ensures_advance {file : OpenFile} {outcome : Outcome} (shape : outcome.ret < 0 → outcome.ret = -1) :
    Ensures possible (advance deployment file outcome) fun log result => log = [] ∧ result.1 = outcome := by
  refine ensures_assertClient_nil.bind ?_
  rintro log _ rfl
  split
  next negative => exact ⟨rfl, by rw [← shape negative]⟩
  next => exact ⟨rfl, rfl⟩

/-- What is known of the result of a call with several buffers. -/
def VectoredCall (stale : Int) (file : OpenFile) (iov : List (List Byte)) (log : List (Exchange Request)) (outcome : Outcome) : Prop :=
  (outcome.ret < 0 → outcome.ret = -1) ∧
    ((outcome.ret < 0 → InRange (HookCall.withErrno (outcome.errno.getD stale) outcome.ret)) ↔ ¬Idle file iov log ∨ Errno.Valid stale)

theorem vectoredCall (stale : Int) {file : OpenFile} {iov : List (List Byte)} (fits : (iov.map List.length).sum < 2 ^ 63)
    {log : List (Exchange Request)} {total : Word} {errno : Option Int} (moved : Vectored (file.type = .regular) iov 0 log total errno) :
    VectoredCall stale file iov log (vectoredOutcome total errno) := by
  refine ⟨fun failed => ?_, vectored_reported fits moved⟩
  rw [vectoredOutcome] at failed ⊢
  split at failed
  next zero => exact if_pos zero
  next =>
    have most := moved.most
    exact absurd failed (Int.not_lt.mpr (toInt_nonneg (Nat.le_refl _) (by simp at most; omega)))

theorem ensures_gkfsPwritev (stale : Int) {file : OpenFile} {iov : List (List Byte)} (fits : (iov.map List.length).sum < 2 ^ 63)
    {pos : Word} :
    Ensures possible (gkfsPwritev client file iov pos) (VectoredCall stale file iov) := by
  refine (ensures_vectored (fun _ _ limit => ensures_pwriteBuffer limit) (by simpa using fits)).bind fun log result moved => ?_
  simp only [Program.pure_eq, Ensures, List.append_nil]
  exact vectoredCall stale fits moved

theorem ensures_gkfsPreadv (stale : Int) {file : OpenFile} {iov : List (List Byte)} (fits : (iov.map List.length).sum < 2 ^ 63)
    {pos : Word} :
    Ensures possible (gkfsPreadv client file iov pos) fun log result => VectoredCall stale file iov log result.1 := by
  refine (ensures_vectored (fun buf pos limit => ensures_gkfsPread limit) (by simpa using fits)).bind fun log result moved => ?_
  simp only [Program.pure_eq, Ensures, List.append_nil]
  exact vectoredCall stale fits moved

theorem ensures_gkfsWritev (stale : Int) {file : OpenFile} {iov : List (List Byte)} (fits : (iov.map List.length).sum < 2 ^ 63) :
    Ensures possible (gkfsWritev client file iov) fun log result => VectoredCall stale file iov log result.1 := by
  refine (ensures_gkfsPwritev stale fits).bind fun log outcome vectored => (ensures_advance vectored.1).mono ?_
  rintro rest result ⟨rfl, same⟩
  rwa [same, List.append_nil]

theorem ensures_gkfsReadv (stale : Int) {file : OpenFile} {iov : List (List Byte)} (fits : (iov.map List.length).sum < 2 ^ 63) :
    Ensures possible (gkfsReadv client file iov) fun log result => VectoredCall stale file iov log result.1 := by
  refine (ensures_gkfsPreadv stale fits).bind fun log result vectored => (ensures_advance vectored.1).bind ?_
  rintro rest advanced ⟨rfl, same⟩
  simp only [Program.pure_eq, Ensures, List.append_nil]
  rwa [same]

theorem getdents_reported (totalSize : Str → Nat) (file : OpenFile) (count : Nat)
    (failed : (getdentsEntriesWith totalSize file count).1.ret < 0) :
    InRange (HookCall.withErrno ((getdentsEntriesWith totalSize file count).1.errno.getD stale)
      (getdentsEntriesWith totalSize file count).1.ret) := by
  have answer : ∀ errno : Int, Errno.Valid errno → InRange (HookCall.withErrno errno (-1)) := fun errno valid =>
    (withErrno_failed errno).symm ▸ inRange_neg.mpr valid
  rw [getdentsEntriesWith] at failed ⊢
  split
  next => exact answer Errno.ebadf (by decide)
  next directory =>
    rw [if_neg directory] at failed
    split
    next last =>
      rw [if_pos last] at failed
      exact absurd failed (Int.lt_irrefl 0)
    next more =>
      rw [if_neg more] at failed
      dsimp only at failed ⊢
      split
      next => exact answer Errno.einval (by decide)
      next some =>
        rw [if_neg some] at failed
        exact absurd failed (Int.not_lt.mpr (Int.natCast_nonneg _))

end Hooks

/-- A failure of an operation is one to the application exactly when no code that is
not an error number and no old value of `errno` stands for it. -/
theorem failure_reported_iff {deployment : Deployment} (client : Client deployment) {call : HookCall} (wellFormed : WellFormed call)
    (stale : Int) :
    Ensures possible (call.operation client) fun log outcome => Reported call stale log outcome ↔ Reports stale log call := by
  have first : ∀ {outcome : Outcome}, outcome.ret < 0 ∨ False → outcome.ret < 0 := fun failed => failed.resolve_right id
  have zero : ∀ {α : Type} {log : List (Exchange Request)} {result : SysResult α}, Plain log result →
      Sane result ∧ ∀ v, result = .ok v → (0 : Int) ≤ 0 := fun plain => ⟨plain.1, fun _ _ => Int.le_refl 0⟩
  cases call with
  | openat path mode flags newfd =>
    refine ensures_gkfsOpen.bind fun log result creating => ?_
    simp only [Program.pure_eq, Ensures, List.append_nil, Reported, Failed, or_false]
    exact ofResult_creating (fun _ => Int.natCast_nonneg newfd) creating
  | mkdirat path mode =>
    refine ensures_gkfsCreate.bind fun log result creating => ?_
    simp only [Program.pure_eq, Ensures, List.append_nil, Reported, Failed, or_false]
    exact ofResult_creating (fun _ => Int.le_refl 0) creating
  | stat path =>
    exact ensures_plain rfl (fun _ _ => first) (fun _ => rfl) (fun _ => trivial) (ensures_getMetadata.mono fun _ _ => zero)
  | access path =>
    exact ensures_plain rfl (fun _ _ => first) (fun _ => rfl) (fun _ => trivial) (ensures_gkfsAccess.mono fun _ _ => zero)
  | unlinkat path removeDir =>
    cases removeDir with
    | true => exact ensures_plain rfl (fun _ _ => first) (fun _ => rfl) (fun _ => trivial) (ensures_gkfsRmdir.mono fun _ _ => zero)
    | false => exact ensures_plain rfl (fun _ _ => first) (fun _ => rfl) (fun _ => trivial) (ensures_gkfsRemove.mono fun _ _ => zero)
  | truncate path length =>
    exact ensures_plain rfl (fun _ _ => first) (fun _ => rfl) (fun _ => trivial) (ensures_gkfsTruncate.mono fun _ _ => zero)
  | read file buf => exact ensures_plain rfl (fun _ _ => first) (fun _ => rfl) (fun _ => trivial) (ensures_gkfsRead wellFormed)
  | pread file buf pos =>
    exact ensures_plain rfl (fun _ _ => first) (fun _ => rfl) (fun _ => trivial)
      ((ensures_gkfsPread wellFormed).mono fun _ _ moves => moves.plain wellFormed)
  | write file buf => exact ensures_plain rfl (fun _ _ => first) (fun _ => rfl) (fun _ => trivial) (ensures_gkfsWrite wellFormed)
  | pwrite file buf pos =>
    exact ensures_plain rfl (fun _ _ => first) (fun _ => rfl) (fun _ => trivial)
      ((ensures_gkfsPwrite wellFormed).mono fun _ _ moves => moves.plain wellFormed)
  | lseek file offset whence => exact ensures_lseek file offset whence
  | preadv file iov pos =>
    refine (ensures_gkfsPreadv stale wellFormed).bind fun log result vectored => ?_
    simp only [Program.pure_eq, Ensures, List.append_nil, Reported, Failed, or_false]
    exact vectored.2
  | pwritev file iov pos =>
    refine (ensures_gkfsPwritev stale wellFormed).mono fun log outcome vectored => ?_
    simp only [Reported, Failed, or_false]
    exact vectored.2
  | readv file iov =>
    refine (ensures_gkfsReadv stale wellFormed).bind fun log result vectored => ?_
    simp only [Program.pure_eq, Ensures, List.append_nil, Reported, Failed, or_false]
    exact vectored.2
  | writev file iov =>
    refine (ensures_gkfsWritev stale wellFormed).bind fun log result vectored => ?_
    simp only [Program.pure_eq, Ensures, List.append_nil, Reported, Failed, or_false]
    exact vectored.2
  | getdents file count => exact iff_of_true (fun failed => getdents_reported _ file count (first failed)) trivial
  | getdents64 file count => exact iff_of_true (fun failed => getdents_reported _ file count (first failed)) trivial
  | dup map oldfd =>
    rw [HookCall.operation]
    cases answered : map.dup oldfd with
    | none => trivial
    | some answer =>
      obtain ⟨result, after⟩ := answer
      refine iff_of_true (fun failed => ofResult_reported (fun errno same => ?_) (fun fd same => ?_) (first failed)) trivial
      · subst same
        exact dup_error answered ▸ by decide
      · subst same
        exact dup_nonneg wellFormed.2 answered
  | dup2 map oldfd newfd =>
    obtain ⟨bound, least, most⟩ := wellFormed
    simp only [HookCall.operation, dup2_ok bound, Outcome.ofResult, Program.pure_eq, Ensures, Reported, Failed, or_false]
    exact descriptor_reported least most

/-- An `open` that creates a file. -/
def creatingOpen (path : Str) (newfd : Nat) : HookCall := .openat path 0o644 { oCreat := true } newfd

theorem failure_reported_iff_open : WellFormed (creatingOpen "/file".toList 10000) ∧
    Ensures possible ((creatingOpen "/file".toList 10000).operation (.first (.pair List.length))) fun log outcome =>
      Reported (creatingOpen "/file".toList 10000) 0 log outcome ↔ Reports 0 log (creatingOpen "/file".toList 10000) := by
  have wellFormed : WellFormed (creatingOpen "/file".toList 10000) := trivial
  exact ⟨wellFormed, failure_reported_iff _ wellFormed 0⟩

/-- The path is new, its parent is a directory, and the daemon answers the creation with -1. -/
theorem creatingOpen_refused {deployment : Deployment} {client : Client deployment} {path : Str} {newfd : Nat}
    {post : List (Exchange Request) → Outcome → Prop} (ensures : Ensures possible ((creatingOpen path newfd).operation client) post) :
    ∃ log, post log ⟨-1, some (-1)⟩ := by
  have parsed := MergeLaws.parse_serialize deployment.ndebug (MergeLaws.recorded_ofMode Mode.ifdir)
  have directory : (Metadata.ofMode Mode.ifdir).mode.isDir = true := by decide
  simp only [creatingOpen, HookCall.operation, gkfsOpen, gkfsCreate, checkParentDir, getMetadata, forwardStat, forwardCreate,
    Program.bind_eq, Program.pure_eq, Program.call_bind, Program.bind, Bool.false_eq_true, if_false] at ensures
  have missing := ensures [some (Errno.enoent, [])] rfl (possible_call (.inr (.inl rfl)) (Nat.le_refl 0))
  have parent := missing [some (0, (Metadata.ofMode Mode.ifdir).serialize .default)] rfl
    (possible_call (.inl rfl) (Nat.le_refl 0))
  simp only [List.headD_cons, ne_eq, not_true_eq_false, if_false, Program.pure_bind, parseAttr, parsed, Program.pure_eq,
    Bool.false_and, Bool.false_eq_true, directory, if_true, Program.bind] at parent
  exact ⟨_, parent [some (-1)] rfl (possible_call (.inr rfl) (Nat.le_refl 0))⟩

/-- The application takes the answer for descriptor 1. -/
theorem refused_open_returns_descriptor :
    ¬Ensures possible ((creatingOpen "/file".toList 10000).operation (.first (.pair List.length)))
      (Reported (creatingOpen "/file".toList 10000) 0) := by
  intro ensures
  obtain ⟨log, reported⟩ := creatingOpen_refused ensures
  exact absurd (reported (.inl (by decide))).2 (by decide)

end GekkoFwd.Proofs.HookErrors
