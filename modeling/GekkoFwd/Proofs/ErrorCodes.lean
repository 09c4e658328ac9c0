import GekkoFwd.Lib.RpcRules
import GekkoFwd.FileOps

/-! The error codes that the daemons put into their answers, and how they reach `errno`
through the client's functions for paths. -/

namespace GekkoFwd.Proofs.ErrorCodes
open RpcProgram ClientOps FileOps

/-- The error codes that the handlers put into their answers. -/
def Codes : {β : Type} → Request β → β → Prop
  | _, .create _ _, err => err = 0 ∨ err = -1
  | _, .stat _, (err, _) => err = 0 ∨ err = Errno.enoent ∨ err = Errno.ebusy
  | _, .decrSize _ _, err => err = 0 ∨ err = Errno.eio
  | _, .remove _, err => err = 0 ∨ err = Errno.ebusy
  | _, .updateMetadentrySize _ _ _ _, (err, _) => err = 0 ∨ err = Errno.enoent ∨ err = Errno.ebusy
  | _, .getMetadentrySize _, (err, size) => err = 0 ∨ (err = Errno.enoent ∨ err = Errno.ebusy) ∧ size = 0
  | _, .getDirents _ _, (err, _, _) => err = 0 ∨ err = Errno.enobufs ∨ err = Errno.ebusy
  | _, .truncData _ _, err => err = 0
  | _, .writeData _ _, (err, _) => err = 0 ∨ Errno.Valid err
  | _, .readData _, (err, _, _) => err = 0 ∨ Errno.Valid err

/-- The bytes that a daemon says it has moved. -/
def moved : {β : Type} → Request β → Option β → Nat
  | _, .writeData _ _, some (_, ioSize) => ioSize.toNat
  | _, .readData _, some (_, ioSize, _) => ioSize.toNat
  | _, _, _ => 0

/-- The size of the buffer that the client exposes. -/
def room : {β : Type} → Request β → Nat
  | _, .writeData input _ => input.bulkSize.toNat
  | _, .readData input => input.bulkSize.toNat
  | _, _ => 0

/-- Any of the codes or no answer at all, and no more bytes than the buffer has. -/
def possible : Allowed Request := fun _ requests replies =>
  (∀ posted answer, (posted, some answer) ∈ requests.zip replies → Codes posted.2 answer) ∧
    ∀ posted ∈ requests, (List.zipWith (fun posted reply => moved posted.2 reply) requests replies).sum ≤ room posted.2

/-- A creation that the daemon answered with its own -1. -/
def refused : Exchange Request → Prop
  | ⟨.create _ _, reply⟩ => reply = some (-1)
  | _ => False

def Refused (log : List (Exchange Request)) : Prop := ∃ exchange ∈ log, refused exchange

variable {deployment : Deployment} {client : Client deployment} {path : Str} {α : Type}

/-- Errors are error numbers. -/
def Sane (result : SysResult α) : Prop := ∀ errno, result = .error errno → Errno.Valid errno

theorem sane_ok (value : α) : Sane (.ok value) := nofun

theorem sane_error {errno : Int} (valid : Errno.Valid errno) : Sane (.error errno : SysResult α) := by
  intro other same
  cases same
  exact valid

theorem refused_append {log rest : List (Exchange Request)} : Refused (log ++ rest) ↔ Refused log ∨ Refused rest := by
  simp only [Refused, List.mem_append, or_and_right, exists_or]

/-- What holds of the programs that create nothing. -/
def Plain (log : List (Exchange Request)) (result : SysResult α) : Prop := Sane result ∧ ¬Refused log

theorem not_refused_nil : ¬Refused [] := by
  rintro ⟨_, member, _⟩
  cases member

theorem plain_pure {result : SysResult α} (sane : Sane result) : Plain [] result := ⟨sane, not_refused_nil⟩

/-- A log that begins with a request that creates nothing. -/
theorem plain_cons {exchange : Exchange Request} {log : List (Exchange Request)} {result : SysResult α}
    (other : ¬refused exchange) (plain : Plain log result) : Plain (exchange :: log) result := by
  refine ⟨plain.1, ?_⟩
  rintro ⟨found, member, here⟩
  rcases List.mem_cons.mp member with rfl | later
  · exact other here
  · exact plain.2 ⟨found, later, here⟩

theorem plain_append {log rest : List (Exchange Request)} {result : SysResult α} (first : ¬Refused log) (plain : Plain rest result) :
    Plain (log ++ rest) result := ⟨plain.1, fun found => (refused_append.mp found).elim first plain.2⟩

theorem codes_call {β : Type} {host : Nat} {request : Request β} {answer : β} (passed : possible _ [(host, request)] [some answer]) :
    Codes request answer := passed.1 (host, request) answer List.mem_cons_self

theorem possible_call {β : Type} {host : Nat} {request : Request β} {answer : β} (code : Codes request answer)
    (fits : moved request (some answer) ≤ room request) : possible _ [(host, request)] [some answer] := by
  refine ⟨fun posted other member => ?_, fun posted member => ?_⟩
  · cases List.mem_singleton.mp member
    exact code
  · cases List.mem_singleton.mp member
    exact fits

theorem codes_batch {β : Type} {requests : List (Nat × Request β)} {replies : List (Option β)} (passed : possible _ requests replies)
    (length : replies.length = requests.length) (holds : β → Prop)
    (codes : ∀ posted ∈ requests, ∀ answer, Codes posted.2 answer → holds answer) {answer : β} (member : some answer ∈ replies) :
    holds answer := by
  obtain ⟨posted, paired⟩ := exists_mem_zip length member
  exact codes posted (List.of_mem_zip paired).1 answer (passed.1 posted answer paired)

theorem not_refused_exchanges {β : Type} {requests : List (Nat × Request β)} (replies : List (Option β))
    (other : ∀ posted ∈ requests, ∀ reply, ¬refused ⟨posted.2, reply⟩) : ¬Refused (exchanges requests replies) := by
  rintro ⟨exchange, member, here⟩
  obtain ⟨posted, reply, paired, rfl⟩ := mem_exchanges.mp member
  exact other posted (List.of_mem_zip paired).1 reply here

theorem bind_plain {β : Type} {program : Prog (SysResult α)} {next : SysResult α → Prog (SysResult β)}
    (first : Ensures possible program Plain) (rest : ∀ result, Sane result → Ensures possible (next result) Plain) :
    Ensures possible (program.bind next) Plain := by
  refine first.bind fun log result plain => ?_
  exact (rest result plain.1).mono fun more last later => plain_append plain.2 later

theorem bind_silent {β : Type} {program : Prog α} {next : α → Prog (SysResult β)}
    (first : Ensures possible program fun log _ => ¬Refused log) (rest : ∀ value, Ensures possible (next value) Plain) :
    Ensures possible (program.bind next) Plain := by
  refine first.bind fun log value silent => ?_
  exact (rest value).mono fun more last later => plain_append silent later

/-- An answer whose code is zero or an error number. -/
theorem sane_answer {err : Int} {value : α} (code : err = 0 ∨ Errno.Valid err) :
    Sane (if err ≠ 0 then .error err else .ok value : SysResult α) := by
  split
  next failed => exact sane_error (code.resolve_left failed)
  next => exact sane_ok value

theorem valid_of_code {err other : Int} (valid : Errno.Valid other) (code : err = 0 ∨ err = other) : err = 0 ∨ Errno.Valid err := by
  rcases code with rfl | rfl
  · exact .inl rfl
  · exact .inr valid

theorem valid_of_codes {err : Int} (code : err = 0 ∨ err = Errno.enoent ∨ err = Errno.ebusy) : err = 0 ∨ Errno.Valid err := by
  rcases code with rfl | rfl | rfl
  · exact .inl rfl
  · exact .inr (by decide)
  · exact .inr (by decide)

theorem ensures_forwardStat : Ensures possible (forwardStat client path) Plain := by
  refine ensures_call_bind fun reply passed => ?_
  cases reply with
  | none => exact plain_cons id (plain_pure (sane_error (by decide)))
  | some answer => exact plain_cons id (plain_pure (sane_answer (valid_of_codes (codes_call passed))))

theorem ensures_parseAttr {attr : Str} : Ensures possible (parseAttr deployment attr) fun log _ => ¬Refused log := by
  rw [parseAttr]
  split
  next => exact not_refused_nil
  next => trivial

theorem ensures_assertClient_nil {condition : Bool} : Ensures possible (assertClient deployment condition) fun log _ => log = [] := by
  rw [assertClient]
  split
  next => exact rfl
  next => trivial

theorem ensures_assertClient {condition : Bool} : Ensures possible (assertClient deployment condition) fun log _ => ¬Refused log :=
  ensures_assertClient_nil.mono fun _ _ none => none ▸ not_refused_nil

theorem ensures_getMetadata {followLinks : Bool} : Ensures possible (getMetadata client path followLinks) Plain := by
  refine bind_plain ensures_forwardStat fun result sane => ?_
  cases result with
  | error errno => exact plain_pure (sane_error (sane errno rfl))
  | ok attr =>
    refine bind_silent ensures_parseAttr fun md => ?_
    split
    next => trivial
    next => exact plain_pure (sane_ok md)

theorem ensures_checkParentDir : Ensures possible (checkParentDir client path) Plain := by
  refine bind_plain ensures_getMetadata fun result sane => ?_
  cases result with
  | error errno => exact plain_pure (sane_error (sane errno rfl))
  | ok md =>
    refine plain_pure ?_
    split
    next => exact sane_ok ()
    next => exact sane_error (by decide)

theorem sane_lastError {replies : List (Option Int)} (codes : ∀ err, some err ∈ replies → err = 0 ∨ Errno.Valid err) :
    Sane (lastError replies) := by
  induction replies with
  | nil => exact sane_ok ()
  | cons reply replies ih =>
    have rest := ih fun err member => codes err (List.mem_cons_of_mem _ member)
    unfold lastError
    split
    next errno failed => exact sane_error (rest errno failed)
    next => exact sane_error (by decide)
    next => exact sane_answer (codes _ List.mem_cons_self)

theorem ensures_forwardRemove {removeMetadentryOnly : Bool} {size : Word} :
    Ensures possible (forwardRemove client path removeMetadentryOnly size) Plain := by
  intro replies length passed
  refine plain_append (not_refused_exchanges replies fun posted member reply => ?_) (plain_pure (sane_lastError fun err member => ?_))
  · obtain ⟨host, _, rfl⟩ := List.mem_map.mp member
    exact id
  · refine codes_batch passed length (fun err => err = 0 ∨ Errno.Valid err) (fun posted member answer code => ?_) member
    obtain ⟨host, _, rfl⟩ := List.mem_map.mp member
    exact valid_of_code (by decide) code

theorem ensures_gkfsRemove : Ensures possible (gkfsRemove client path) Plain := by
  refine bind_plain ensures_getMetadata fun result sane => ?_
  cases result with
  | error errno => exact plain_pure (sane_error (sane errno rfl))
  | ok md => exact ensures_forwardRemove

theorem ensures_forwardGetDirents : Ensures possible (forwardGetDirents client path) fun log _ => ¬Refused log := by
  intro replies length passed
  have other := @not_refused_exchanges _ (client.distributor.locateDirectoryMetadata.map fun host =>
    (host, Request.getDirents path (direntsBuffSize / client.distributor.locateDirectoryMetadata.length))) replies
  dsimp only
  cases replies.mapM (recvReply deployment.ndebug (direntsBuffSize / client.distributor.locateDirectoryMetadata.length)) with
  | none => trivial
  | some received =>
    refine fun found => (refused_append.mp found).elim (other fun posted member reply => ?_) not_refused_nil
    obtain ⟨host, _, rfl⟩ := List.mem_map.mp member
    exact id

theorem ensures_gkfsRmdir : Ensures possible (gkfsRmdir client path) Plain := by
  refine bind_plain ensures_getMetadata fun result _ => ?_
  cases result with
  | error errno => exact plain_pure (sane_error (by decide))
  | ok md =>
    dsimp only
    split
    next => exact plain_pure (sane_error (by decide))
    next =>
      refine bind_silent ensures_forwardGetDirents fun entries => ?_
      split
      next => exact plain_pure (sane_error (by decide))
      next => exact ensures_forwardRemove

theorem ensures_gkfsOpendir : Ensures possible (gkfsOpendir client path) Plain := by
  refine bind_plain ensures_getMetadata fun result sane => ?_
  cases result with
  | error errno => exact plain_pure (sane_error (sane errno rfl))
  | ok md =>
    dsimp only
    split
    next => exact plain_pure (sane_error (by decide))
    next => exact bind_silent ensures_forwardGetDirents fun entries => plain_pure (sane_ok entries)

theorem ensures_gkfsAccess : Ensures possible (gkfsAccess client path) Plain := by
  refine bind_plain ensures_getMetadata fun result _ => ?_
  cases result with
  | error errno => exact plain_pure (sane_error (by decide))
  | ok md => exact plain_pure (sane_ok ())

theorem ensures_forwardDecrSize {length : Word} : Ensures possible (forwardDecrSize client path length) Plain := by
  refine ensures_call_bind fun reply passed => ?_
  cases reply with
  | none => exact plain_cons id (plain_pure (sane_error (by decide)))
  | some err => exact plain_cons id (plain_pure (sane_answer (valid_of_code (by decide) (codes_call passed))))

theorem ensures_forwardTruncate {currentSize newSize : Word} :
    Ensures possible (forwardTruncate client path currentSize newSize) Plain := by
  refine bind_silent ensures_assertClient fun _ => ?_
  cases TruncateHosts.collect (client.locateData path) currentSize newSize with
  | none => trivial
  | some hosts =>
    intro replies length passed
    refine plain_append (not_refused_exchanges replies fun posted member reply => ?_) (plain_pure ?_)
    · obtain ⟨host, _, rfl⟩ := List.mem_map.mp member
      exact id
    · split
      next => exact sane_ok ()
      next => exact sane_error (by decide)

theorem ensures_gkfsTruncateTo {oldSize newSize : Word} : Ensures possible (gkfsTruncateTo client path oldSize newSize) Plain := by
  refine bind_silent ensures_assertClient fun _ => bind_silent ensures_assertClient fun _ => ?_
  split
  next => exact plain_pure (sane_ok ())
  next =>
    refine bind_plain ensures_forwardDecrSize fun result sane => ?_
    cases result with
    | error errno => exact plain_pure (sane_error (sane errno rfl))
    | ok _ => exact ensures_forwardTruncate

theorem ensures_gkfsTruncate {length : Word} : Ensures possible (gkfsTruncate client path length) Plain := by
  rw [gkfsTruncate]
  split
  next => exact plain_pure (sane_error (by decide))
  next =>
    refine bind_plain ensures_getMetadata fun result sane => ?_
    cases result with
    | error errno => exact plain_pure (sane_error (sane errno rfl))
    | ok md =>
      dsimp only
      split
      next => exact plain_pure (sane_error (by decide))
      next => exact ensures_gkfsTruncateTo

/-- A creation may put its own -1 into `errno`, and does so when it is refused. -/
def Creating (log : List (Exchange Request)) (result : SysResult α) : Prop :=
  (∀ errno, result = .error errno → Errno.Valid errno ∨ errno = -1) ∧ (Refused log ↔ result = .error (-1))

theorem Plain.creating {log : List (Exchange Request)} {result : SysResult α} (plain : Plain log result) : Creating log result := by
  refine ⟨fun errno failed => .inl (plain.1 errno failed), fun found => absurd found plain.2, fun failed => ?_⟩
  exact absurd (plain.1 _ failed).1 (by decide)

theorem Creating.append {log rest : List (Exchange Request)} {result : SysResult α} (first : ¬Refused log)
    (creating : Creating rest result) :
    Creating (log ++ rest) result :=
  ⟨creating.1, by rw [refused_append, or_iff_right first, creating.2]⟩

theorem ensures_forwardCreate {mode : Mode} : Ensures possible (forwardCreate client path mode) Creating := by
  refine ensures_call_bind fun reply passed => ?_
  cases reply with
  | none => exact (plain_cons (by simp [refused]) (plain_pure (sane_error (by decide)))).creating
  | some err =>
    have code : err = 0 ∨ err = -1 := codes_call passed
    rcases code with rfl | rfl
    · exact (plain_cons (by simp [refused]) (plain_pure (sane_ok ()))).creating
    · exact ⟨fun errno failed => .inr (Except.error.inj failed).symm, iff_of_true ⟨_, List.mem_cons_self, rfl⟩ rfl⟩

theorem sane_nodeMode (mode : Mode) : Sane (nodeMode mode) := by
  simp only [nodeMode]
  split
  next => exact sane_ok _
  next =>
    split
    next => exact sane_ok _
    next => split <;> exact sane_error (by decide)

theorem ensures_gkfsCreate {mode : Mode} : Ensures possible (gkfsCreate client path mode) Creating := by
  rw [gkfsCreate]
  split
  next errno unknown => exact (plain_pure (sane_error (sane_nodeMode mode errno unknown))).creating
  next =>
    refine ensures_checkParentDir.bind fun log result plain => ?_
    cases result with
    | error errno => exact (plain_append plain.2 (plain_pure (sane_error (plain.1 errno rfl)))).creating
    | ok _ => exact ensures_forwardCreate.mono fun rest last creating => creating.append plain.2

theorem ensures_gkfsOpen {mode : Mode} {flags : OpenFlags} : Ensures possible (gkfsOpen client path mode flags) Creating := by
  have refuse : ∀ {errno : Int}, Errno.Valid errno → Creating [] (.error errno : SysResult Unit) := fun valid =>
    (plain_pure (sane_error valid)).creating
  rw [gkfsOpen]
  split
  next => exact refuse (by decide)
  next =>
  split
  next => exact refuse (by decide)
  next =>
  refine ensures_getMetadata.bind fun log result plain => ?_
  cases result with
  | error errno =>
    dsimp only
    split
    next => exact (refuse (plain.1 errno rfl)).append plain.2
    next =>
    split
    next => exact (refuse (by decide)).append plain.2
    next =>
    split
    next => exact (refuse (by decide)).append plain.2
    next => exact ensures_gkfsCreate.mono fun rest last creating => creating.append plain.2
  | ok md =>
    dsimp only
    split
    next => exact (refuse (by decide)).append plain.2
    next =>
    split
    next => trivial
    next =>
    split
    next =>
      refine ensures_gkfsOpendir.bind fun rest opened later => ?_
      refine (plain_append plain.2 (plain_append later.2 (plain_pure ?_))).creating
      cases opened with
      | error errno => exact sane_error (later.1 errno rfl)
      | ok entries => exact sane_ok ()
    next =>
      refine (bind_silent ensures_assertClient fun _ => ?_).mono fun rest last later => (plain_append plain.2 later).creating
      split
      next => exact ensures_gkfsTruncateTo
      next => exact plain_pure (sane_ok ())

end GekkoFwd.Proofs.ErrorCodes
