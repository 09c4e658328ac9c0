import Mathlib.Algebra.Order.BigOperators.Group.List
import GekkoFwd.Lib.Words
import GekkoFwd.Proofs.ErrorCodes

/-! What the client's functions for open files return of a transfer: an error number,
or no more bytes than the buffer has. -/

namespace GekkoFwd.Proofs.TransferErrors
open RpcProgram ClientOps FileOps ErrorCodes

/-- A data transfer without an error that moved nothing. -/
def idle : Exchange Request → Prop
  | ⟨.writeData _ _, reply⟩ => reply = some (0, 0)
  | ⟨.readData _, reply⟩ => ∃ pushes, reply = some (0, 0, pushes)
  | ⟨.updateMetadentrySize _ _ _ _, reply⟩ => ∃ size, reply = some (0, size)
  | _ => True

variable {deployment : Deployment} {client : Client deployment} {path : Str}

/-- The bytes of one answer. -/
def ioSize (reply : Option (Int × Word)) : Nat := reply.elim 0 fun answer => answer.2.toNat

theorem collectSizes_ok {replies : List (Option (Int × Word))} {total : Word} (bounded : (replies.map ioSize).sum < 2 ^ 64)
    (collected : collectSizes replies = .ok total) :
    total.toNat = (replies.map ioSize).sum ∧ ∀ reply ∈ replies, ∃ size, reply = some (0, size) := by
  induction replies generalizing total with
  | nil =>
    cases collected
    exact ⟨rfl, nofun⟩
  | cons reply replies ih =>
    rw [List.map_cons, List.sum_cons] at bounded ⊢
    unfold collectSizes at collected
    split at collected
    next => cases collected
    next => cases collected
    next rest err size before =>
      split at collected
      next => cases collected
      next fine =>
        cases collected
        obtain ⟨value, others⟩ := ih (by omega) before
        refine ⟨?_, ?_⟩
        · rw [BitVec.toNat_add, value, show size.toNat = ioSize (some (err, size)) from rfl, Nat.mod_eq_of_lt bounded]
        · rintro other (_ | _)
          · exact ⟨size, by rw [not_not.mp fine]⟩
          · exact others other ‹_›

theorem collectSizes_error {replies : List (Option (Int × Word))} {errno : Int} (collected : collectSizes replies = .error errno) :
    none ∈ replies ∧ errno = Errno.eio ∨ ∃ size, some (errno, size) ∈ replies ∧ errno ≠ 0 := by
  induction replies with
  | nil => cases collected
  | cons reply replies ih =>
    unfold collectSizes at collected
    split at collected
    next before =>
      cases collected
      refine (ih before).imp (fun ⟨missing, same⟩ => ⟨List.mem_cons_of_mem _ missing, same⟩) ?_
      exact fun ⟨size, member, failed⟩ => ⟨size, List.mem_cons_of_mem _ member, failed⟩
    next =>
      cases collected
      exact .inl ⟨List.mem_cons_self, rfl⟩
    next =>
      split at collected
      next failed =>
        cases collected
        exact .inr ⟨_, List.mem_cons_self, failed⟩
      next => cases collected

/-- What a transfer of at most `count` bytes comes to. Without an error and without a
byte moved, all answers were idle, and the file is one that can be read. -/
structure Moves (regular : Prop) (count : Nat) (log : List (Exchange Request)) (result : SysResult Word) : Prop where
  sane : Sane result
  bounded : ∀ total, result = .ok total → total.toNat ≤ count
  idle : ((∀ exchange ∈ log, idle exchange) ∧ regular) ↔ result = .ok 0

theorem Moves.cons {regular : Prop} {count : Nat} {exchange : Exchange Request} {log : List (Exchange Request)} {result : SysResult Word}
    (quiet : TransferErrors.idle exchange) (moves : Moves regular count log result) : Moves regular count (exchange :: log) result :=
  ⟨moves.sane, moves.bounded, by rw [List.forall_mem_cons, and_iff_right quiet, moves.idle]⟩

theorem moves_collectSizes {count : Nat} (limit : count < 2 ^ 64) {log : List (Exchange Request)} {replies : List (Option (Int × Word))}
    (codes : ∀ err size, some (err, size) ∈ replies → err = 0 ∨ Errno.Valid err) (fits : (replies.map ioSize).sum ≤ count)
    (quiet : (∀ exchange ∈ log, idle exchange) ↔ ∀ reply ∈ replies, reply = some (0, 0)) :
    Moves True count log (collectSizes replies) := by
  have bounded : (replies.map ioSize).sum < 2 ^ 64 := Nat.lt_of_le_of_lt fits limit
  refine ⟨fun errno failed => ?_, fun total collected => ?_, ?_⟩
  · rcases collectSizes_error failed with ⟨_, rfl⟩ | ⟨size, member, nonzero⟩
    · decide
    · exact (codes errno size member).resolve_left nonzero
  · rw [(collectSizes_ok bounded collected).1]
    exact fits
  · rw [and_true, quiet]
    constructor
    · intro all
      cases collected : collectSizes replies with
      | error errno =>
        rcases collectSizes_error collected with ⟨missing, _⟩ | ⟨size, member, nonzero⟩
        · cases all none missing
        · cases all _ member
          exact absurd rfl nonzero
      | ok total =>
        have zero : (replies.map ioSize).sum = 0 := by
          refine List.sum_eq_zero fun size member => ?_
          obtain ⟨reply, found, rfl⟩ := List.mem_map.mp member
          rw [all reply found]
          rfl
        rw [BitVec.eq_of_toNat_eq (((collectSizes_ok bounded collected).1.trans zero).trans rfl : total.toNat = (0 : Word).toNat)]
    · intro collected reply member
      obtain ⟨total, successes⟩ := collectSizes_ok bounded collected
      obtain ⟨size, rfl⟩ := successes reply member
      have none : ioSize (some ((0 : Int), size)) = 0 := by
        refine Nat.le_zero.mp (Nat.le_trans (List.le_sum_of_mem (List.mem_map_of_mem member)) ?_)
        rw [← total]
        exact Nat.le_refl 0
      have zero : size = 0 := BitVec.eq_of_toNat_eq none
      rw [zero]

theorem sum_moved {β : Type} {requests : List (Nat × Request β)} {replies : List (Option β)} (length : replies.length = requests.length)
    {size : Option β → Nat} (same : ∀ posted ∈ requests, ∀ reply, moved posted.2 reply = size reply) :
    (List.zipWith (fun posted reply => moved posted.2 reply) requests replies).sum = (replies.map size).sum := by
  induction requests generalizing replies with
  | nil =>
    rw [List.eq_nil_of_length_eq_zero length]
    rfl
  | cons posted requests ih =>
    cases replies with
    | nil => cases length
    | cons reply replies =>
      rw [List.zipWith_cons_cons, List.sum_cons, List.map_cons, List.sum_cons, same posted List.mem_cons_self,
        ih (Nat.succ.inj length) fun other member => same other (List.mem_cons_of_mem _ member)]

/-- A batch is idle when all of its replies are. -/
theorem idle_exchanges {β : Type} {requests : List (Nat × Request β)} {replies : List (Option β)}
    (length : replies.length = requests.length)
    {quiet : Option β → Prop} (same : ∀ posted ∈ requests, ∀ reply, idle ⟨posted.2, reply⟩ ↔ quiet reply) :
    (∀ exchange ∈ exchanges requests replies, idle exchange) ↔ ∀ reply ∈ replies, quiet reply := by
  constructor
  · intro all reply member
    obtain ⟨posted, paired⟩ := exists_mem_zip length member
    exact (same posted (List.of_mem_zip paired).1 reply).mp (all _ (mem_exchanges.mpr ⟨posted, reply, paired, rfl⟩))
  · intro all exchange member
    obtain ⟨posted, reply, paired, rfl⟩ := mem_exchanges.mp member
    exact (same posted (List.of_mem_zip paired).1 reply).mpr (all reply (List.of_mem_zip paired).2)

theorem bulkSize_inputs {transfer : Transfer} {requests : List (Nat × DataIn)} (split : transfer.inputs client path = some requests) :
    ∀ request ∈ requests, request.2.bulkSize = transfer.size := by
  obtain ⟨state, _, rfl⟩ := Option.map_eq_some_iff.mp split
  intro request member
  obtain ⟨target, _, rfl⟩ := List.mem_map.mp member
  rfl

/-- The sizes in the replies to one transfer fit into its buffer. -/
theorem fits_batch {β : Type} {requests : List (Nat × Request β)} {replies : List (Option β)} (passed : possible _ requests replies)
    (length : replies.length = requests.length) {size : Option β → Nat} {count : Nat}
    (same : ∀ posted ∈ requests, ∀ reply, moved posted.2 reply = size reply) (capacity : ∀ posted ∈ requests, room posted.2 = count) :
    (replies.map size).sum ≤ count := by
  rw [← sum_moved length same]
  cases requests with
  | nil =>
    rw [List.zipWith_nil_left]
    exact Nat.zero_le _
  | cons posted requests =>
    rw [← capacity posted List.mem_cons_self]
    exact passed.2 posted List.mem_cons_self

theorem ensures_forwardWrite {buf : List Byte} {appendFlag : Bool} {inOffset writeSize updatedSize : Word} :
    Ensures possible (forwardWrite client path buf appendFlag inOffset writeSize updatedSize) (Moves True writeSize.toNat) := by
  refine ensures_assertClient_nil.bind fun log _ none => ?_
  subst none
  cases split : Transfer.inputs (.forwardWrite appendFlag inOffset writeSize updatedSize) client path with
  | none => trivial
  | some requests =>
    intro replies length passed
    have each : ∀ posted ∈ requests.map fun request => (request.1, Request.writeData request.2 buf),
        ∃ request ∈ requests, posted = (request.1, Request.writeData request.2 buf) := fun posted member => by
      obtain ⟨request, found, rfl⟩ := List.mem_map.mp member
      exact ⟨request, found, rfl⟩
    simp only [Program.pure_eq, Ensures, List.nil_append, List.append_nil]
    refine moves_collectSizes writeSize.isLt (fun err size member => ?_) (fits_batch passed length ?_ ?_)
      (idle_exchanges length fun posted member reply => ?_)
    · refine codes_batch passed length (fun answer => answer.1 = 0 ∨ Errno.Valid answer.1) (fun posted member answer code => ?_) member
      obtain ⟨request, _, rfl⟩ := each posted member
      exact code
    · intro posted member reply
      obtain ⟨request, _, rfl⟩ := each posted member
      cases reply <;> rfl
    · intro posted member
      obtain ⟨request, found, rfl⟩ := each posted member
      exact congrArg BitVec.toNat (bulkSize_inputs split request found)
    · obtain ⟨request, _, rfl⟩ := each posted member
      exact Iff.rfl

theorem ensures_forwardRead {buf : List Byte} {offset readSize : Word} :
    Ensures possible (forwardRead client path buf offset readSize) fun log result => Moves True readSize.toNat log result.1 := by
  rw [forwardRead]
  cases split : Transfer.inputs (.forwardRead offset readSize) client path with
  | none => trivial
  | some requests =>
    intro replies length passed
    have each : ∀ posted ∈ requests.map fun request => (request.1, Request.readData request.2),
        ∃ request ∈ requests, posted = (request.1, Request.readData request.2) := fun posted member => by
      obtain ⟨request, found, rfl⟩ := List.mem_map.mp member
      exact ⟨request, found, rfl⟩
    simp only [Program.pure_eq, Ensures, List.append_nil]
    refine moves_collectSizes readSize.isLt (fun err size member => ?_) ?_ ?_
    · obtain ⟨reply, found, same⟩ := List.mem_map.mp member
      obtain ⟨answer, rfl, same⟩ := Option.map_eq_some_iff.mp same
      cases same
      refine codes_batch passed length (fun answer => answer.1 = 0 ∨ Errno.Valid answer.1) (fun posted member answer code => ?_) found
      obtain ⟨request, _, rfl⟩ := each posted member
      exact code
    · rw [List.map_map]
      refine fits_batch passed length (fun posted member reply => ?_) fun posted member => ?_
      · obtain ⟨request, _, rfl⟩ := each posted member
        cases reply <;> rfl
      · obtain ⟨request, found, rfl⟩ := each posted member
        exact congrArg BitVec.toNat (bulkSize_inputs split request found)
    · rw [List.forall_mem_map]
      refine idle_exchanges length fun posted member reply => ?_
      obtain ⟨request, _, rfl⟩ := each posted member
      cases reply with
      | none => simp [idle]
      | some answer => simp [idle, Prod.ext_iff]

theorem moves_error {regular : Prop} {count : Nat} {log : List (Exchange Request)} {errno : Int} (valid : Errno.Valid errno)
    (loud : ¬((∀ exchange ∈ log, idle exchange) ∧ regular)) : Moves regular count log (.error errno) :=
  ⟨sane_error valid, nofun, iff_of_false loud nofun⟩

theorem ensures_forwardUpdateMetadentrySize {size offset : Word} {appendFlag : Bool} :
    Ensures possible (forwardUpdateMetadentrySize client path size offset appendFlag) fun log result =>
      Sane result ∧ ∃ exchange, log = [exchange] ∧ (idle exchange ↔ ∃ updated, result = .ok updated) := by
  refine ensures_call_bind fun reply passed => ?_
  cases reply with
  | none => exact ⟨sane_error (by decide), _, rfl, iff_of_false (by simp [idle]) (by simp)⟩
  | some answer =>
    obtain ⟨err, retSize⟩ := answer
    refine ⟨sane_answer (valid_of_codes (codes_call passed)), _, rfl, ?_⟩
    by_cases failed : err ≠ 0
    · exact iff_of_false (by simp [idle, failed]) (by simp [failed])
    · rw [if_neg failed]
      exact iff_of_true ⟨retSize, by rw [not_not.mp failed]⟩ ⟨retSize, rfl⟩

theorem ensures_gkfsPwrite_path {appendFlag : Bool} {buf : List Byte} (limit : buf.length < 2 ^ 63) {offset : Word} :
    Ensures possible (ClientOps.gkfsPwrite client path appendFlag buf offset) (Moves True buf.length) := by
  have value : (BitVec.ofNat 64 buf.length).toNat = buf.length := Words.toNat_ofNat (by omega)
  refine ensures_forwardUpdateMetadentrySize.bind ?_
  rintro log result ⟨sane, exchange, rfl, quiet⟩
  cases result with
  | error errno => exact moves_error (sane errno rfl) (by simp [quiet])
  | ok updated =>
    refine ensures_forwardWrite.mono fun rest last moves => ?_
    rw [value] at moves
    exact moves.cons (quiet.mpr ⟨updated, rfl⟩)

variable {file : OpenFile}

theorem ensures_gkfsPwrite {buf : List Byte} (limit : buf.length < 2 ^ 63) {offset : Word} :
    Ensures possible (FileOps.gkfsPwrite client file buf offset) (Moves (file.type = .regular) buf.length) := by
  rw [FileOps.gkfsPwrite]
  split
  next regular =>
    refine (ensures_gkfsPwrite_path limit).mono fun log result moves => ?_
    rwa [eq_true regular]
  next other => exact moves_error (by decide) fun quiet => other quiet.2

theorem ensures_gkfsPread {buf : List Byte} (limit : buf.length < 2 ^ 63) {offset : Word} :
    Ensures possible (FileOps.gkfsPread client file buf offset) fun log result => Moves (file.type = .regular) buf.length log result.1 := by
  have value : (BitVec.ofNat 64 buf.length).toNat = buf.length := Words.toNat_ofNat (by omega)
  rw [FileOps.gkfsPread]
  split
  next regular =>
    refine ensures_forwardRead.mono fun log result moves => ?_
    rw [value] at moves
    rwa [eq_true regular]
  next other => exact moves_error (by decide) fun quiet => other quiet.2

theorem toInt_nonneg {word : Word} {count : Nat} (bounded : word.toNat ≤ count) (limit : count < 2 ^ 63) : 0 ≤ word.toInt := by
  rw [BitVec.toInt_eq_toNat_of_lt (by omega)]
  exact Int.natCast_nonneg _

theorem Moves.plain {regular : Prop} {count : Nat} {log : List (Exchange Request)} {result : SysResult Word}
    (moves : Moves regular count log result) (limit : count < 2 ^ 63) :
    Sane result ∧ ∀ total, result = .ok total → 0 ≤ total.toInt :=
  ⟨moves.sane, fun total same => toInt_nonneg (moves.bounded total same) limit⟩

theorem ensures_gkfsRead {file : OpenFile} {buf : List Byte} (limit : buf.length < 2 ^ 63) :
    Ensures possible (gkfsRead client file buf) fun _ result =>
      Sane result.1 ∧ ∀ total, result.1 = .ok total → 0 ≤ total.toInt :=
  (ensures_gkfsPread limit).bind fun _ _ moves => moves.plain limit

theorem ensures_gkfsWrite {file : OpenFile} {buf : List Byte} (limit : buf.length < 2 ^ 63) :
    Ensures possible (gkfsWrite client file buf) fun _ result =>
      Sane result.1 ∧ ∀ total, result.1 = .ok total → 0 ≤ total.toInt :=
  (ensures_true _).bind fun _ _ _ => (ensures_gkfsPwrite limit).bind fun _ _ moves => moves.plain limit

/-- What the loop over the buffers comes to, when it starts with `before` bytes moved. -/
structure Vectored (regular : Prop) (iov : List (List Byte)) (before : Word) (log : List (Exchange Request)) (total : Word)
    (errno : Option Int) : Prop where
  valid : ∀ value, errno = some value → Errno.Valid value
  least : before.toNat ≤ total.toNat
  most : total.toNat ≤ before.toNat + (iov.map List.length).sum
  idle : (total = before ∧ errno = none) ↔ (∀ exchange ∈ log, idle exchange) ∧ (regular ∨ ∀ buf ∈ iov, buf = [])

theorem ensures_pwriteBuffer {file : OpenFile} {buf : List Byte} {pos : Word} (limit : buf.length < 2 ^ 63) :
    Ensures possible (do return (← FileOps.gkfsPwrite client file buf pos, buf))
      fun log result => Moves (file.type = .regular) buf.length log result.1 := by
  refine (ensures_gkfsPwrite limit).bind fun log result moves => ?_
  simp only [Program.pure_eq, Ensures, List.append_nil]
  exact moves

theorem ensures_vectored {regular : Prop} {transfer : List Byte → Word → Prog (SysResult Word × List Byte)}
    (transfers : ∀ buf pos, buf.length < 2 ^ 63 →
      Ensures possible (transfer buf pos) fun log result => Moves regular buf.length log result.1)
    {iov : List (List Byte)} {pos before : Word} (fits : before.toNat + (iov.map List.length).sum < 2 ^ 63) :
    Ensures possible (vectored transfer iov pos before) fun log result => Vectored regular iov before log result.1 result.2.1 := by
  induction iov generalizing pos before with
  | nil => exact ⟨nofun, Nat.le_refl _, Nat.le_refl _, iff_of_true ⟨rfl, rfl⟩ ⟨nofun, .inr nofun⟩⟩
  | cons buf iov ih =>
    rw [List.map_cons, List.sum_cons] at fits
    rw [vectored]
    split
    next empty =>
      refine (ih (by omega)).bind fun log result moved => ?_
      simp only [Program.pure_eq, Ensures, List.append_nil]
      refine ⟨moved.valid, moved.least, ?_, ?_⟩
      · rw [List.map_cons, List.sum_cons, empty, Nat.zero_add]
        exact moved.most
      · rw [moved.idle, List.forall_mem_cons, and_iff_right (List.eq_nil_of_length_eq_zero empty)]
    next some =>
      refine (transfers buf pos (by omega)).bind fun log result moves => ?_
      obtain ⟨result, filled⟩ := result
      have loud : result ≠ .ok 0 → ∀ rest, ¬((∀ exchange ∈ log ++ rest, idle exchange) ∧ (regular ∨ ∀ other ∈ buf :: iov, other = [])) := by
        rintro nonzero rest ⟨quiet, regular | empty⟩
        · exact nonzero (moves.idle.mp ⟨fun exchange member => quiet exchange (List.mem_append_left _ member), regular⟩)
        · exact some (congrArg List.length (empty buf List.mem_cons_self))
      cases result with
      | error errno =>
        have none := loud nofun []
        exact ⟨fun value same => Option.some.inj same ▸ moves.sane errno rfl, Nat.le_refl _, Nat.le_add_right _ _,
          iff_of_false (fun same => by cases same.2) none⟩
      | ok ret =>
        have bound := moves.bounded ret rfl
        have sum : (before + ret).toNat = before.toNat + ret.toNat := by
          rw [BitVec.toNat_add, Nat.mod_eq_of_lt (by omega)]
        have positive : ret ≠ -1 := fun same => by
          rw [same] at bound
          exact absurd bound (Nat.not_le.mpr (by rw [show (-1 : Word).toNat = 2 ^ 64 - 1 from rfl]; omega))
        simp only [if_neg positive]
        split
        next short =>
          simp only [Program.pure_eq, Ensures]
          refine ⟨nofun, by omega, by rw [List.map_cons, List.sum_cons]; omega, ?_⟩
          by_cases zero : ret = 0
          · subst zero
            obtain ⟨quiet, regular⟩ := moves.idle.mpr rfl
            exact iff_of_true ⟨BitVec.add_zero before, rfl⟩ ⟨by rwa [List.append_nil], .inl regular⟩
          · refine iff_of_false (fun same => zero ?_) (loud (fun same => zero (Except.ok.inj same)) [])
            exact BitVec.eq_of_toNat_eq (by rw [same.1] at sum; exact Nat.add_left_cancel sum.symm)
        next full =>
          refine (ih (by omega)).bind fun rest last moved => ?_
          simp only [Program.pure_eq, Ensures, List.append_nil]
          have more := moved.least
          have most := moved.most
          refine ⟨moved.valid, by omega, by rw [List.map_cons, List.sum_cons]; omega, ?_⟩
          refine iff_of_false (fun same => ?_) (loud (fun same => ?_) rest)
          · rw [same.1] at more
            omega
          · cases same
            exact full (Nat.pos_of_ne_zero some)

end GekkoFwd.Proofs.TransferErrors
