import GekkoFwd.Proofs.IoPartition
import GekkoFwd.Proofs.HookErrors

/-! How the position of an open file moves with the bytes that were read and written.
The daemons may answer with any count up to the requested one, or with an error. -/

namespace GekkoFwd.Proofs.FilePositions
open RpcProgram ClientOps FileOps ErrorCodes TransferErrors HookErrors

/-- The calls that use the position of an open file. -/
inductive StreamCall where
  | read (buf : List Byte)
  | write (buf : List Byte)
  | readv (iov : List (List Byte))
  | writev (iov : List (List Byte))

/-- What a call returns and the file it leaves. -/
def StreamCall.run {deployment : Deployment} (client : Client deployment) (file : OpenFile) : StreamCall → Prog (Int × OpenFile)
  | .read buf => do
    let (ret, _, after) ← gkfsRead client file buf
    return ((Outcome.ofResult BitVec.toInt ret).ret, after)
  | .write buf => do
    let (ret, after) ← gkfsWrite client file buf
    return ((Outcome.ofResult BitVec.toInt ret).ret, after)
  | .readv iov => do
    let (outcome, after, _) ← gkfsReadv client file iov
    return (outcome.ret, after)
  | .writev iov => do
    let (outcome, after) ← gkfsWritev client file iov
    return (outcome.ret, after)

/-- The position moves by a positive count and stays otherwise. -/
def Follows (file : OpenFile) (ret : Int) (after : OpenFile) : Prop :=
  after.pos = if 0 < ret then file.pos + .ofInt 64 ret else file.pos

/-- A write of data that was not refused. -/
def accepted : Exchange Request → Prop
  | ⟨.writeData _ _, reply⟩ => ∃ size, reply = some (0, size)
  | _ => True

/-- The bytes that the daemons say they have moved. -/
def bytes (log : List (Exchange Request)) : Nat := (log.map fun exchange => moved exchange.request exchange.reply).sum

/-- All daemons have answered, and together they have stored something. -/
def Stored (log : List (Exchange Request)) : Prop := (∀ exchange ∈ log, accepted exchange) ∧ 0 < bytes log ∧ bytes log < 2 ^ 63

/-- The answers that leave the position right, for a count that is a `size_t`. A write that is not refused must not be
short, and one that stores nothing must not have moved to the end before. -/
def Steady (file : OpenFile) (log : List (Exchange Request)) : StreamCall → Prop
  | .write buf =>
    (Stored log → bytes log = buf.length % 2 ^ 64) ∧
      (¬Stored log → file.append = true → ∀ answer, sizeReply log = some answer → answer.2 = file.pos)
  | _ => True

/-- Calls on one open file, each with the answers of its own. -/
inductive Session {deployment : Deployment} (client : Client deployment) : OpenFile → List Int → OpenFile → Prop where
  | done {file} : Session client file [] file
  | call {file between last log ret rets} {call : StreamCall} (steady : Steady file log call)
      (returned : Returns possible (call.run client file) log (ret, between)) (rest : Session client between rets last) :
      Session client file (ret :: rets) last

theorem zero_slt_iff {total : Word} : (0 : Word).slt total = true ↔ 0 < total.toInt := by
  rw [BitVec.slt_iff_toInt_lt, show (0 : Word).toInt = 0 from rfl]

section Calls
variable {deployment : Deployment} {client : Client deployment} {file : OpenFile} {allowed : Allowed Request}

theorem follows_gkfsRead (buf : List Byte) : Ensures allowed (gkfsRead client file buf) fun _ result =>
    Follows file (Outcome.ofResult BitVec.toInt result.1).ret result.2.2 := by
  refine (ensures_true _).bind fun log result _ => ?_
  obtain ⟨ret, filled⟩ := result
  cases ret with
  | error errno => exact (if_neg (show ¬(0 : Int) < -1 by decide)).symm
  | ok read =>
    show (if (0 : Word).slt read then { file with pos := file.pos + read } else file).pos =
      if 0 < read.toInt then file.pos + .ofInt 64 read.toInt else file.pos
    by_cases positive : 0 < read.toInt
    · rw [if_pos (zero_slt_iff.mpr positive), if_pos positive, BitVec.ofInt_toInt]
    · rw [if_neg (zero_slt_iff.not.mpr positive), if_neg positive]

theorem follows_advance {outcome : Outcome} : Ensures allowed (advance deployment file outcome) fun _ result =>
    Follows file result.1.ret result.2 := by
  refine (ensures_true _).bind fun _ _ _ => ?_
  split
  next => exact (if_neg (show ¬(0 : Int) < -1 by decide)).symm
  next success =>
    simp only [Program.pure_eq, Ensures, Follows]
    by_cases positive : 0 < outcome.ret
    · rw [if_pos positive]
    · have zero : outcome.ret = 0 := by omega
      simp [zero]

theorem follows_gkfsReadv (iov : List (List Byte)) : Ensures allowed (gkfsReadv client file iov) fun _ result =>
    Follows file result.1.ret result.2.1 :=
  (ensures_true _).bind fun _ _ _ => follows_advance.bind fun _ _ follows => follows

theorem follows_gkfsWritev (iov : List (List Byte)) : Ensures allowed (gkfsWritev client file iov) fun _ result =>
    Follows file result.1.ret result.2 :=
  (ensures_true _).bind fun _ _ _ => follows_advance

end Calls

section Writes
variable {deployment : Deployment} {client : Client deployment} {file : OpenFile}

theorem bytes_append (log rest : List (Exchange Request)) : bytes (log ++ rest) = bytes log + bytes rest := by
  simp [bytes]

theorem bytes_writes {requests : List (Nat × DataIn)} {buf : List Byte} {replies : List (Option (Int × Word))}
    (length : replies.length = (requests.map fun request => (request.1, Request.writeData request.2 buf)).length) :
    bytes (exchanges (requests.map fun request => (request.1, Request.writeData request.2 buf)) replies) = (replies.map ioSize).sum := by
  rw [bytes, exchanges, List.map_zipWith]
  refine sum_moved length fun posted member reply => ?_
  obtain ⟨request, _, rfl⟩ := List.mem_map.mp member
  cases reply <;> rfl

theorem accepted_writes {requests : List (Nat × DataIn)} {buf : List Byte} {replies : List (Option (Int × Word))}
    (length : replies.length = (requests.map fun request => (request.1, Request.writeData request.2 buf)).length) :
    (∀ exchange ∈ exchanges (requests.map fun request => (request.1, Request.writeData request.2 buf)) replies, accepted exchange) ↔
      ∀ reply ∈ replies, ∃ size, reply = some (0, size) := by
  constructor
  · intro all reply member
    obtain ⟨posted, paired⟩ := exists_mem_zip length member
    obtain ⟨request, _, rfl⟩ := List.mem_map.mp (List.of_mem_zip paired).1
    exact all _ (mem_exchanges.mpr ⟨_, reply, paired, rfl⟩)
  · intro all exchange member
    obtain ⟨posted, reply, paired, rfl⟩ := mem_exchanges.mp member
    obtain ⟨request, _, rfl⟩ := List.mem_map.mp (List.of_mem_zip paired).1
    exact all reply (List.of_mem_zip paired).2

/-- Something is returned exactly when all daemons have answered and it is their sum. -/
def Sums (log : List (Exchange Request)) (result : SysResult Word) : Prop :=
  ∀ total, total ≠ 0 → (result = .ok total ↔ (∀ exchange ∈ log, accepted exchange) ∧ bytes log = total.toNat)

theorem sums_collectSizes {replies : List (Option (Int × Word))} {log : List (Exchange Request)}
    (bounded : (replies.map ioSize).sum < 2 ^ 64) (sum : bytes log = (replies.map ioSize).sum)
    (all : (∀ exchange ∈ log, accepted exchange) ↔ ∀ reply ∈ replies, ∃ size, reply = some (0, size)) :
    Sums log (collectSizes replies) := by
  intro total _
  rw [all, sum]
  constructor
  · intro collected
    obtain ⟨value, successes⟩ := collectSizes_ok bounded collected
    exact ⟨successes, value.symm⟩
  · rintro ⟨successes, value⟩
    cases collected : collectSizes replies with
    | error errno =>
      rcases collectSizes_error collected with ⟨missing, _⟩ | ⟨size, member, nonzero⟩
      · obtain ⟨_, same⟩ := successes none missing
        cases same
      · obtain ⟨_, same⟩ := successes _ member
        cases same
        exact absurd rfl nonzero
    | ok other => rw [BitVec.eq_of_toNat_eq ((collectSizes_ok bounded collected).1.trans value)]

theorem sums_error {log : List (Exchange Request)} {errno : Int} (none : bytes log = 0) : Sums log (.error errno) := by
  intro total some
  refine iff_of_false nofun fun sum => some (BitVec.eq_of_toNat_eq ?_)
  rw [← sum.2, none]
  rfl

theorem sums_forwardWrite {path : Str} {buf : List Byte} {appendFlag : Bool} {inOffset writeSize updatedSize : Word} :
    Ensures possible (forwardWrite client path buf appendFlag inOffset writeSize updatedSize) Sums := by
  refine ensures_assertClient_nil.bind fun log _ none => ?_
  subst none
  cases split : Transfer.inputs (.forwardWrite appendFlag inOffset writeSize updatedSize) client path with
  | none => trivial
  | some requests =>
    intro replies length passed
    simp only [Program.pure_eq, Ensures, List.nil_append, List.append_nil]
    refine sums_collectSizes ?_ (bytes_writes length) (accepted_writes length)
    refine Nat.lt_of_le_of_lt (fits_batch passed length (fun posted member reply => ?_) fun posted member => ?_) writeSize.isLt
    · obtain ⟨request, _, rfl⟩ := List.mem_map.mp member
      cases reply <;> rfl
    · obtain ⟨request, found, rfl⟩ := List.mem_map.mp member
      exact congrArg BitVec.toNat (bulkSize_inputs split request found)

/-- Requests that are not for data. -/
def Quiet (log : List (Exchange Request)) : Prop := (∀ exchange ∈ log, accepted exchange) ∧ bytes log = 0

theorem Sums.append {log rest : List (Exchange Request)} {result : SysResult Word} (quiet : Quiet log) (sums : Sums rest result) :
    Sums (log ++ rest) result := by
  intro total some
  rw [sums total some, bytes_append, quiet.2, Nat.zero_add, List.forall_mem_append, and_iff_right quiet.1]

theorem quiet_update {path : Str} {size offset : Word} {appendFlag : Bool} :
    Ensures possible (forwardUpdateMetadentrySize client path size offset appendFlag) fun log _ => Quiet log := by
  refine ensures_call_bind fun reply _ => ?_
  cases reply with
  | none => exact ⟨by simp [accepted], rfl⟩
  | some answer => exact ⟨by simp [accepted], rfl⟩

theorem sums_gkfsPwrite {buf : List Byte} {offset : Word} : Ensures possible (FileOps.gkfsPwrite client file buf offset) Sums := by
  rw [FileOps.gkfsPwrite]
  split
  next regular =>
    refine quiet_update.bind fun log result quiet => ?_
    cases result with
    | error errno => exact Sums.append quiet (sums_error rfl)
    | ok updated => exact sums_forwardWrite.mono fun rest last sums => sums.append quiet
  next => exact sums_error rfl

theorem ensures_seekEnd_zero : Ensures possible (gkfsLseek client file 0 .seekEnd) fun log result =>
    Quiet log ∧ ∀ rest, result.2.pos = (sizeReply (log ++ rest)).elim file.pos (·.2) := by
  have query : Ensures possible (forwardGetMetadentrySize client file.path) fun log result =>
      Quiet log ∧ ∀ rest, sizeReply (log ++ rest) = none ∧ result.1 < 0 ∨ sizeReply (log ++ rest) = some result ∧ ¬result.1 < 0 := by
    refine ensures_call_bind fun reply passed => ?_
    cases reply with
    | none => exact ⟨⟨by simp [accepted], rfl⟩, fun rest => .inl ⟨rfl, by decide⟩⟩
    | some answer =>
      refine ⟨⟨by simp [accepted], rfl⟩, fun rest => .inr ⟨rfl, ?_⟩⟩
      obtain ⟨err, size⟩ := answer
      have code : err = 0 ∨ (err = Errno.enoent ∨ err = Errno.ebusy) ∧ size = 0 := codes_call passed
      rcases code with rfl | ⟨rfl | rfl, _⟩ <;> exact of_decide_eq_false rfl
  refine query.bind fun log result ⟨quiet, replied⟩ => ?_
  obtain ⟨err, size⟩ := result
  dsimp only
  split
  next negative =>
    refine ⟨by rwa [List.append_nil], fun rest => ?_⟩
    rw [List.append_nil, ((replied rest).resolve_right fun fine => fine.2 negative).1]
    rfl
  next fine =>
    have unrefused : ¬((0 : Word).slt 0 && size.slt (-0)) = true := by simp
    rw [if_neg unrefused]
    refine ⟨by rwa [List.append_nil], fun rest => ?_⟩
    rw [List.append_nil, ((replied rest).resolve_left fun failed => fine failed.2).1]
    exact BitVec.add_zero size

theorem ensures_seekToAppend : Ensures possible (seekToAppend client file) fun log after =>
    Quiet log ∧ ∀ rest, after.pos = if file.append then (sizeReply (log ++ rest)).elim file.pos (·.2) else file.pos := by
  rw [seekToAppend]
  cases appends : file.append with
  | false => exact ⟨⟨nofun, rfl⟩, fun _ => rfl⟩
  | true =>
    refine ensures_seekEnd_zero.bind fun log result seeked => ?_
    simp only [Program.pure_eq, Ensures, List.append_nil]
    exact seeked

theorem stored_iff {log : List (Exchange Request)} {result : SysResult Word} (sums : Sums log result) :
    Stored log ↔ ∃ total, result = .ok total ∧ 0 < total.toInt := by
  constructor
  · rintro ⟨all, positive, small⟩
    have value : (BitVec.ofNat 64 (bytes log)).toNat = bytes log := Words.toNat_ofNat (by omega)
    have sign := Words.toInt_cases (w := 63) (BitVec.ofNat 64 (bytes log))
    refine ⟨.ofNat 64 (bytes log), (sums _ fun zero => ?_).mpr ⟨all, value.symm⟩, by omega⟩
    rw [zero] at value
    exact absurd value (Nat.ne_of_lt positive)
  · rintro ⟨total, same, positive⟩
    have sign := Words.toInt_cases (w := 63) total
    obtain ⟨all, sum⟩ := (sums total fun zero => by rw [zero] at positive; exact absurd positive (by decide)).mp same
    exact ⟨all, by omega, by omega⟩

/-- A write that stored something moves by the size of its buffer. -/
theorem follows_stored {log : List (Exchange Request)} {buf : List Byte} {total : Word} {seeked : OpenFile} (stored : Stored log)
    (sum : bytes log = total.toNat) (positive : 0 < total.toInt) :
    Follows file total.toInt { seeked with pos := file.pos + .ofNat 64 buf.length } ↔ Steady file log (.write buf) := by
  rw [Follows, if_pos positive, BitVec.ofInt_toInt, BitVec.add_right_inj, ← BitVec.toNat_inj, BitVec.toNat_ofNat, ← sum, eq_comm, Steady,
    and_iff_left fun missing => absurd stored missing]
  exact ⟨fun same _ => same, fun same => same stored⟩

/-- A write that stored nothing stays where the seek has left it. -/
theorem follows_unstored {log : List (Exchange Request)} {buf : List Byte} {ret : Int} {seeked : OpenFile} (unstored : ¬Stored log)
    (nothing : ¬0 < ret) (seeks : seeked.pos = if file.append then (sizeReply log).elim file.pos (·.2) else file.pos) :
    Follows file ret seeked ↔ Steady file log (.write buf) := by
  rw [Follows, if_neg nothing, seeks, Steady, and_iff_right fun stored => absurd stored unstored]
  cases file.append with
  | false => simp
  | true => cases sizeReply log <;> simp [unstored]

theorem follows_gkfsWrite (buf : List Byte) : Ensures possible (gkfsWrite client file buf) fun log result =>
    Follows file (Outcome.ofResult BitVec.toInt result.1).ret result.2 ↔ Steady file log (.write buf) := by
  refine ensures_seekToAppend.bind fun log seeked ⟨quiet, seeks⟩ => ?_
  refine sums_gkfsPwrite.bind fun rest ret sums => ?_
  have whole : Sums (log ++ rest) ret := sums.append quiet
  simp only [Program.pure_eq, Ensures, List.append_nil]
  by_cases stored : Stored (log ++ rest)
  · obtain ⟨total, rfl, positive⟩ := (stored_iff whole).mp stored
    have sum := ((whole total fun zero => by rw [zero] at positive; exact absurd positive (by decide)).mp rfl).2
    simp only [if_pos (zero_slt_iff.mpr positive)]
    exact follows_stored stored sum positive
  · cases ret with
    | error errno => exact follows_unstored stored (show ¬(0 : Int) < -1 by decide) (seeks rest)
    | ok total =>
      have nothing : ¬0 < total.toInt := fun positive => stored ((stored_iff whole).mpr ⟨total, rfl, positive⟩)
      simp only [if_neg (zero_slt_iff.not.mpr nothing)]
      exact follows_unstored stored nothing (seeks rest)

end Writes

section Sessions
variable {deployment : Deployment} {client : Client deployment} {file : OpenFile}

theorem follows_iff_steady (call : StreamCall) : Ensures possible (call.run client file) fun log result =>
    Follows file result.1 result.2 ↔ Steady file log call := by
  cases call with
  | read buf => exact (follows_gkfsRead buf).bind fun _ _ follows => iff_of_true follows trivial
  | readv iov => exact (follows_gkfsReadv iov).bind fun _ _ follows => iff_of_true follows trivial
  | writev iov => exact (follows_gkfsWritev iov).bind fun _ _ follows => iff_of_true follows trivial
  | write buf =>
    refine (follows_gkfsWrite buf).bind fun log result follows => ?_
    simp only [Program.pure_eq, Ensures, List.append_nil]
    exact follows

theorem pos_of_follows {ret : Int} {after : OpenFile} (follows : Follows file ret after) (rets : List Int) :
    after.pos + .ofInt 64 (rets.filter (0 < ·)).sum = file.pos + .ofInt 64 ((ret :: rets).filter (0 < ·)).sum := by
  rw [follows]
  by_cases positive : 0 < ret
  · rw [if_pos positive, List.filter_cons_of_pos (by simpa using positive), List.sum_cons, BitVec.ofInt_add, BitVec.add_assoc]
  · rw [if_neg positive, List.filter_cons_of_neg (by simpa using positive)]

theorem pos_of_session {rets : List Int} {last : OpenFile} (session : Session client file rets last) :
    last.pos = file.pos + .ofInt 64 (rets.filter (0 < ·)).sum := by
  induction session with
  | done => exact (BitVec.add_zero _).symm
  | call steady returned rest ih =>
    rw [ih, pos_of_follows (((follows_iff_steady _).of_returns returned).mpr steady)]

end Sessions

/-- The position follows what a call returns exactly when the daemons' answers are
steady, and over a session of such calls it moves by all that was read and written. -/
theorem position_follows_iff {deployment : Deployment} (client : Client deployment) :
    (∀ (file after : OpenFile) (call : StreamCall) (log : List (Exchange Request)) (ret : Int),
      Returns possible (call.run client file) log (ret, after) → (Follows file ret after ↔ Steady file log call)) ∧
    ∀ (file last : OpenFile) (rets : List Int), Session client file rets last →
      last.pos = file.pos + .ofInt 64 (rets.filter (0 < ·)).sum :=
  ⟨fun _ _ call _ _ returned => (follows_iff_steady call).of_returns returned, fun _ _ _ session => pos_of_session session⟩

section Runs
variable {deployment : Deployment} {client : Client deployment}

/-- The first daemon takes something and the others nothing. -/
def firstTakes (size : Word) (others : Nat) : List (Option (Int × Word)) := some (0, size) :: List.replicate others (some (0, 0))

theorem collectSizes_firstTakes (size : Word) (others : Nat) : collectSizes (firstTakes size others) = .ok size := by
  have rest : collectSizes (List.replicate others (some (0, 0))) = .ok 0 := by
    induction others with
    | zero => rfl
    | succ others ih =>
      simp only [List.replicate_succ, collectSizes, ih, ne_eq, not_true_eq_false, if_false]
      rfl
  simp only [firstTakes, collectSizes, rest, ne_eq, not_true_eq_false, if_false]
  exact congrArg Except.ok (BitVec.add_zero size)

theorem sum_firstTakes (size : Word) (others : Nat) : ((firstTakes size others).map ioSize).sum = size.toNat := by
  simp [firstTakes, ioSize]

theorem firstTakes_ok {size : Word} {others : Nat} {reply : Option (Int × Word)} (member : reply ∈ firstTakes size others) :
    ∃ taken, reply = some (0, taken) := by
  rcases List.mem_cons.mp member with rfl | later
  · exact ⟨size, rfl⟩
  · exact ⟨0, List.eq_of_mem_replicate later⟩

theorem possible_firstTakes {target : Nat × DataIn} {others : List (Nat × DataIn)} {buf : List Byte} {size : Word}
    (room : ∀ request ∈ target :: others, size.toNat ≤ request.2.bulkSize.toNat) :
    possible _ ((target :: others).map fun request => (request.1, Request.writeData request.2 buf)) (firstTakes size others.length) := by
  refine ⟨fun posted answer paired => ?_, fun posted member => ?_⟩
  · obtain ⟨request, _, rfl⟩ := List.mem_map.mp (List.of_mem_zip paired).1
    obtain ⟨taken, same⟩ := firstTakes_ok (List.of_mem_zip paired).2
    cases same
    exact .inl rfl
  · rw [sum_moved (by simp [firstTakes]) fun posted member reply => ?_, sum_firstTakes]
    · obtain ⟨request, found, rfl⟩ := List.mem_map.mp member
      exact room request found
    · obtain ⟨request, _, rfl⟩ := List.mem_map.mp member
      cases reply <;> rfl

theorem exists_returns_forwardWrite {path : Str} {buf : List Byte} (positive : 0 < buf.length) (limit : buf.length < 2 ^ 63)
    {stored : Nat} (fits : stored ≤ buf.length) :
    ∃ log, Returns possible (forwardWrite client path buf false 0 (.ofNat 64 buf.length) (.ofNat 64 buf.length)) log
        (.ok (.ofNat 64 stored)) ∧ (∀ exchange ∈ log, accepted exchange) ∧ bytes log = stored := by
  have size : (BitVec.ofNat 64 stored).toNat = stored := Words.toNat_ofNat (by omega)
  have count : (BitVec.ofNat 64 buf.length).toNat = buf.length := Words.toNat_ofNat (by omega)
  let range : ChunkPartition.IoRange := ⟨0, buf.length, positive, by omega⟩
  obtain ⟨targets, request, final, dispatch⟩ := IoPartition.exists_dispatch client path range
  have inputs : Transfer.inputs (.forwardWrite false 0 (.ofNat 64 buf.length) (.ofNat 64 buf.length)) client path =
      some (targets.map fun target => (target, request target)) := by
    rw [Transfer.inputs, show Transfer.offset (.forwardWrite false 0 (.ofNat 64 buf.length) (.ofNat 64 buf.length)) = 0 from
      BitVec.sub_self _]
    exact dispatch.inputs
  have asked : client.locateData path range.split.first ∈ targets :=
    (dispatch.mem_targets _).mpr ⟨_, ⟨Nat.le_refl _, range.split.first_le_last⟩, rfl⟩
  cases targets with
  | nil => cases asked
  | cons target others =>
    have room : ∀ posted ∈ (target, request target) :: others.map (fun target => (target, request target)),
        (BitVec.ofNat 64 stored).toNat ≤ posted.2.bulkSize.toNat := by
      intro posted member
      rw [bulkSize_inputs inputs posted member, size]
      exact count.symm ▸ fits
    have asserted : assertClient deployment (decide ((0 : Word) < .ofNat 64 buf.length)) = .pure () := by
      rw [assertClient, if_pos]
      · rfl
      · simp only [Bool.or_eq_true, decide_eq_true_eq, BitVec.lt_def, count]
        exact .inr positive
    have length : (firstTakes (.ofNat 64 stored) (others.map fun target => (target, request target)).length).length =
        (((target :: others).map fun target => (target, request target)).map
          fun posted => (posted.1, Request.writeData posted.2 buf)).length := by simp [firstTakes]
    refine ⟨_, ?_, (accepted_writes length).mpr fun reply => firstTakes_ok, ?_⟩
    · rw [forwardWrite, asserted, inputs]
      exact ⟨_, [], length, possible_firstTakes room, (List.append_nil _).symm, rfl, (collectSizes_firstTakes _ _).symm⟩
    · rw [bytes_writes length, sum_firstTakes, size]

end Runs

/-- A write at the beginning of a file, of which the daemons store as much as they like. -/
theorem exists_returns_write {deployment : Deployment} (client : Client deployment) (path : Str) (buf : List Byte) (stored : Nat)
    (limit : buf.length < 2 ^ 63) (taken : 0 < stored) (fits : stored ≤ buf.length) :
    ∃ log, Returns possible ((StreamCall.write buf).run client (.opened path)) log
        ((stored : Int), { OpenFile.opened path with pos := .ofNat 64 buf.length }) ∧ Stored log ∧ bytes log = stored := by
  obtain ⟨log, wrote, all, sum⟩ : ∃ log, Returns possible (forwardWrite client path buf false 0 (.ofNat 64 buf.length)
      (.ofNat 64 buf.length)) log (.ok (.ofNat 64 stored)) ∧ (∀ exchange ∈ log, accepted exchange) ∧ bytes log = stored :=
    exists_returns_forwardWrite (Nat.lt_of_lt_of_le taken fits) limit fits
  have value : (BitVec.ofNat 64 stored).toInt = stored := by
    rw [BitVec.toInt_eq_toNat_of_lt] <;> rw [Words.toNat_ofNat] <;> omega
  have slt : (0 : Word).slt (.ofNat 64 stored) = true := zero_slt_iff.mpr (by omega)
  let update : Exchange Request := ⟨.updateMetadentrySize path (.ofNat 64 buf.length) 0 false, some (0, .ofNat 64 buf.length)⟩
  have updated : Returns possible (forwardUpdateMetadentrySize client path (.ofNat 64 buf.length) 0 false) [update]
      (.ok (.ofNat 64 buf.length)) :=
    ⟨[some (0, .ofNat 64 buf.length)], [], rfl, possible_call (.inl rfl) (Nat.le_refl 0), rfl, rfl, rfl⟩
  have pwritten : Returns possible (FileOps.gkfsPwrite client (.opened path) buf 0) ([update] ++ log) (.ok (.ofNat 64 stored)) :=
    updated.bind wrote
  have after : (if (0 : Word).slt (.ofNat 64 stored) then { OpenFile.opened path with pos := 0 + .ofNat 64 buf.length }
      else OpenFile.opened path) = { OpenFile.opened path with pos := .ofNat 64 buf.length } := by
    rw [if_pos slt]
    exact congrArg (fun pos => { OpenFile.opened path with pos := pos }) (BitVec.zero_add _)
  have written : Returns possible (gkfsWrite client (.opened path) buf) ([update] ++ log)
      (.ok (.ofNat 64 stored), { OpenFile.opened path with pos := .ofNat 64 buf.length }) := by
    rw [← after]
    exact pwritten.map _
  have total : bytes ([update] ++ log) = stored := by rw [bytes_append, sum, show bytes [update] = 0 from rfl, Nat.zero_add]
  refine ⟨[update] ++ log, ?_, ⟨?_, by omega, by omega⟩, total⟩
  · rw [← value]
    exact written.map _
  · rw [List.forall_mem_append]
    exact ⟨by simp [accepted, update], all⟩

/-- A write of three bytes that is stored in full. -/
theorem position_follows_iff_full : ∃ log,
    Returns possible ((StreamCall.write [1, 2, 3]).run (.first (.pair List.length)) (.opened "/file".toList)) log
      (3, { OpenFile.opened "/file".toList with pos := 3 }) ∧
    Follows (.opened "/file".toList) 3 { OpenFile.opened "/file".toList with pos := 3 } := by
  obtain ⟨log, returned, stored, sum⟩ := exists_returns_write (.first (.pair List.length)) "/file".toList [1, 2, 3] 3
    (by decide) (by decide) (by decide)
  exact ⟨log, returned, ((position_follows_iff _).1 _ _ _ log 3 returned).mpr ⟨fun _ => sum, fun missing => absurd stored missing⟩⟩

/-- One of two bytes is stored, and the position moves by two. -/
theorem short_write_skips_byte : ∃ log,
    Returns possible ((StreamCall.write [1, 2]).run (.first (.pair List.length)) (.opened "/file".toList)) log
      (1, { OpenFile.opened "/file".toList with pos := 2 }) ∧
    ¬Follows (.opened "/file".toList) 1 { OpenFile.opened "/file".toList with pos := 2 } := by
  obtain ⟨log, returned, _⟩ := exists_returns_write (.first (.pair List.length)) "/file".toList [1, 2] 1
    (by decide) (by decide) (by decide)
  refine ⟨log, returned, ?_⟩
  rw [Follows]
  decide

end GekkoFwd.Proofs.FilePositions
