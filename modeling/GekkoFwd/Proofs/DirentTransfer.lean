import GekkoFwd.Proofs.DirectoryListing

/-! The buffer that carries directory entries from a daemon to the client: what the loop of
the daemon writes, what the loop of the client reads back, and what an answer without an
error says about the buffer. -/

namespace GekkoFwd.Proofs.DirentTransfer
open ClientOps Dirents CellMemory DirectoryListing

/-- Names as the database has them. -/
def Named (entries : List (Str × Bool)) : Prop := ∀ entry ∈ entries, entry.1 ≠ [] ∧ nul ∉ entry.1

/-- The two pointers write two arrays, one behind the other. -/
theorem fillBuff_eq {entries : List (Str × Bool)} (named : Named entries) {boolPtr namesPtr : Nat}
    (apart : boolPtr + entries.length ≤ namesPtr) (memory : Nat → Char) :
    fillBuff entries boolPtr namesPtr memory =
      store (store memory boolPtr (entries.map fun entry => boolChar entry.2)) namesPtr
        (entries.flatMap fun entry => strcpy entry.1) := by
  induction entries generalizing boolPtr namesPtr memory with
  | nil =>
    funext cell
    simp [fillBuff, store]
  | cons entry entries ih =>
    obtain ⟨⟨_, plain⟩, others⟩ := List.forall_mem_cons.mp named
    rw [List.length_cons] at apart
    have room : entry.1.length + 1 = (strcpy entry.1).length := by
      rw [strcpy_eq plain, List.length_append, List.length_singleton]
    -- The flags behind this one come before its name.
    have moved := @store_comm _ (store memory boolPtr [boolChar entry.2]) (boolPtr + 1) namesPtr
      (entries.map fun entry => boolChar entry.2) (strcpy entry.1) (by rw [List.length_map]; omega)
    have flags := store_append memory boolPtr [boolChar entry.2] (entries.map fun entry => boolChar entry.2)
    rw [List.length_singleton] at flags
    rw [fillBuff, takeWhile_plain plain, ← strcpy_eq plain, ih others (by omega), moved, flags, room, store_append]
    rfl

theorem filledBuff_eq {entries : List (Str × Bool)} (named : Named entries) : filledBuff entries = outBuff entries := by
  have flags : (entries.map fun entry => boolChar entry.2).length = entries.length := List.length_map _
  have length : outSize entries = (outBuff entries).length := by
    rw [outBuff, List.length_append, flags, length_strcpys]
  have arrays := store_append (fun _ => nul) 0 (entries.map fun entry => boolChar entry.2) (entries.flatMap fun entry => strcpy entry.1)
  rw [flags, Nat.zero_add] at arrays
  rw [filledBuff, fillBuff_eq named (by omega), arrays, length]
  exact window_store _ 0 rfl

theorem length_filledBuff (entries : List (Str × Bool)) : (filledBuff entries).length = outSize entries := length_window ..

theorem recvDirents_filledBuff {ndebug : Bool} {size : Nat} {entries : List (Str × Bool)} (named : Named entries)
    (fits : outSize entries ≤ size) (behind : Str) :
    recvDirents ndebug size (filledBuff entries ++ behind) entries.length 0 entries.length = some entries := by
  rw [filledBuff_eq named]
  exact recvDirents_outBuff (fun entry member => (named entry member).2) fits behind

/-- The client gets the entries that the daemon has written, with its assertions and without
a read behind them: with nothing behind the encoded entries such a read has no value. -/
theorem dirents_round_trip (ndebug : Bool) {entries : List (Str × Bool)} (named : Named entries) {bulkSize : Nat}
    (fits : (entries.map fun entry => entry.1.length).sum + 2 * entries.length ≤ bulkSize) :
    (filledBuff entries).length = (entries.map fun entry => entry.1.length).sum + 2 * entries.length ∧
      recvDirents ndebug bulkSize (filledBuff entries) entries.length 0 entries.length = some entries ∧
      ∀ behind, recvDirents ndebug bulkSize (filledBuff entries ++ behind) entries.length 0 entries.length = some entries := by
  have size : outSize entries = (entries.map fun entry => entry.1.length).sum + 2 * entries.length := by
    rw [outSize, Nat.mul_comm]
  rw [← size] at fits ⊢
  refine ⟨length_filledBuff entries, ?_, recvDirents_filledBuff named fits⟩
  exact List.append_nil (filledBuff entries) ▸ recvDirents_filledBuff named fits []

theorem dirents_round_trip_tight :
    recvDirents false 7 (filledBuff [("ab".toList, true), ("c".toList, false)]) 2 0 2 = some [("ab".toList, true),
      ("c".toList, false)] := by
  have named : Named [("ab".toList, true), ("c".toList, false)] := by
    unfold Named
    decide
  exact (@dirents_round_trip false _ named 7 (by decide)).2.1

/-- Without a failure the handler answers what `rpcSrvGetDirents` says. -/
theorem respondDirents_done {ndebug : Bool} {path : Str} {db : MetadataDb} {entries : List (Str × Bool)} (named : Named entries)
    (listed : db.getDirents .default ndebug path = .ok entries) (exposed : Str) :
    ∃ err count pushed, Daemon.rpcSrvGetDirents ndebug path exposed.length db = some (err, count, pushed) ∧
      Daemon.respondDirents entries true .done exposed = ((err, count), pushed ++ exposed.drop pushed.length) := by
  simp only [Daemon.rpcSrvGetDirents, listed, Daemon.respondDirents, List.isEmpty_iff, filledBuff_eq named]
  by_cases empty : entries = []
  · subst empty
    exact ⟨0, 0, [], rfl, rfl⟩
  by_cases short : exposed.length < outSize entries
  · refine ⟨_, _, _, by rw [if_neg empty, if_pos short], ?_⟩
    rw [if_neg empty, if_pos short]
    rfl
  · refine ⟨_, _, _, by rw [if_neg empty, if_neg short], ?_⟩
    rw [if_neg empty, if_neg short, ← filledBuff_eq named, length_filledBuff]
    rfl

/-! The answers of all hosts. -/

/-- One host's part in a listing: its entries, how its calls end, and the client's buffer for
it as the call finds it. -/
structure Exchange where
  entries : List (Str × Bool)
  bulkCreated : Bool
  push : Push
  exposed : Str

namespace Exchange
variable (exchange : Exchange)

def answer : (Int × Nat) × Str :=
  Daemon.respondDirents exchange.entries exchange.bulkCreated exchange.push exchange.exposed

/-- The client's buffer begins with the encoded entries. -/
def Arrived : Prop := filledBuff exchange.entries <+: exchange.answer.2

/-- An answer without an error comes with the entries that it counts. -/
def Truthful : Prop := ∀ count, exchange.answer.1 = (0, count) → count = exchange.entries.length ∧ exchange.Arrived

/-- The handler comes to its push. -/
def Reaches : Prop :=
  exchange.entries ≠ [] ∧ outSize exchange.entries ≤ exchange.exposed.length ∧ exchange.bulkCreated = true

/-- A push that the handler comes to does not fail, or has left all of the data. -/
def Delivers : Prop := exchange.Reaches → ∀ left, exchange.push = .failed left → filledBuff exchange.entries <+: left

/-- What the push leaves in the client's buffer. -/
def left : Str :=
  match exchange.push with
  | .failed left => left
  | .done => filledBuff exchange.entries ++ exchange.exposed.drop (outSize exchange.entries)

variable {exchange}

theorem answer_of_reaches (reaches : exchange.Reaches) : exchange.answer = ((0, exchange.entries.length), exchange.left) := by
  obtain ⟨some, fits, created⟩ := reaches
  simp only [answer, Daemon.respondDirents, List.isEmpty_iff, if_neg some, if_neg (Nat.not_lt.mpr fits), created, left]
  cases exchange.push <;> rfl

/-- Before its push the handler answers without an error only if there are no entries. -/
theorem answer_of_not_reaches (stays : ¬ exchange.Reaches) (fine : exchange.answer.1.1 = 0) :
    exchange.entries = [] ∧ exchange.answer.1 = (0, 0) := by
  simp only [answer, Daemon.respondDirents, List.isEmpty_iff] at fine ⊢
  by_cases empty : exchange.entries = []
  · rw [if_pos empty, empty]
    exact ⟨rfl, rfl⟩
  rw [if_neg empty] at fine
  by_cases short : exchange.exposed.length < outSize exchange.entries
  · rw [if_pos short] at fine
    cases fine
  rw [if_neg short] at fine
  cases created : exchange.bulkCreated with
  | false =>
    rw [created] at fine
    cases fine
  | true => exact absurd ⟨empty, Nat.le_of_not_lt short, created⟩ stays

theorem arrived_of_delivers (delivers : exchange.Delivers) (fine : exchange.answer.1.1 = 0) :
    exchange.answer.1.2 = exchange.entries.length ∧ exchange.Arrived := by
  by_cases reaches : exchange.Reaches
  · refine ⟨by rw [answer_of_reaches reaches], ?_⟩
    rw [Arrived, answer_of_reaches reaches, left]
    cases pushed : exchange.push with
    | done => exact List.prefix_append _ _
    | failed left => exact delivers reaches left pushed
  · obtain ⟨empty, counted⟩ := answer_of_not_reaches reaches fine
    refine ⟨by rw [counted, empty]; rfl, ?_⟩
    rw [Arrived, empty]
    exact List.nil_prefix

theorem truthful_iff : exchange.Truthful ↔ exchange.Delivers := by
  refine ⟨fun truthful reaches left failed => ?_, fun delivers count counted => ?_⟩
  · have arrived := (truthful _ (congrArg Prod.fst (answer_of_reaches reaches))).2
    rwa [Arrived, answer_of_reaches reaches, Exchange.left, failed] at arrived
  · have arrived := arrived_of_delivers delivers (congrArg Prod.fst counted)
    rwa [counted] at arrived

theorem recvReply_of_delivers {ndebug : Bool} {added : List (Str × Bool)} (delivers : exchange.Delivers) (named : Named exchange.entries)
    (received : recvReply ndebug exchange.exposed.length (some (exchange.answer.1.1, exchange.answer.1.2, exchange.answer.2)) =
      some added) :
    added = exchange.entries ∧ exchange.Arrived := by
  have fine : exchange.answer.1.1 = 0 := by
    by_contra failed
    rw [recvReply, if_pos failed] at received
    cases received
  obtain ⟨counted, arrived⟩ := arrived_of_delivers delivers fine
  refine ⟨?_, arrived⟩
  rw [recvReply, if_neg (not_not.mpr fine), counted] at received
  by_cases reaches : exchange.Reaches
  · obtain ⟨behind, whole⟩ := arrived
    rw [← whole, recvDirents_filledBuff named reaches.2.1] at received
    exact (Option.some.inj received).symm
  · rw [(answer_of_not_reaches reaches fine).1] at received ⊢
    exact (Option.some.inj received).symm

end Exchange

/-- `forward_get_dirents` behind its requests. -/
def collect (ndebug : Bool) (perHostBuffSize : Nat) (exchanges : List Exchange) : Option (List (Str × Bool)) :=
  (exchanges.mapM fun exchange =>
    recvReply ndebug perHostBuffSize (some (exchange.answer.1.1, exchange.answer.1.2, exchange.answer.2))).map List.flatten

/-- Answers without an error come with their data, and the client adds only what has arrived,
exactly when no push fails that a handler comes to. -/
theorem listing_answers_truthful_iff (ndebug : Bool) {perHostBuffSize : Nat} {exchanges : List Exchange}
    (room : ∀ exchange ∈ exchanges, exchange.exposed.length = perHostBuffSize)
    (named : ∀ exchange ∈ exchanges, Named exchange.entries) :
    ((∀ exchange ∈ exchanges, exchange.Truthful) ∧
      ∀ added, collect ndebug perHostBuffSize exchanges = some added →
        ∀ entry ∈ added, ∃ exchange ∈ exchanges, entry ∈ exchange.entries ∧ exchange.Arrived) ↔
      ∀ exchange ∈ exchanges, exchange.Delivers := by
  refine ⟨fun truthful exchange member => Exchange.truthful_iff.mp (truthful.1 exchange member), fun delivers => ⟨?_, ?_⟩⟩
  · exact fun exchange member => Exchange.truthful_iff.mpr (delivers exchange member)
  · intro added collected entry listed
    obtain ⟨parts, received, rfl⟩ := Option.map_eq_some_iff.mp collected
    obtain ⟨part, among, inside⟩ := List.mem_flatten.mp listed
    obtain ⟨exchange, member, part_eq⟩ := MapM.exists_of_mapM_eq_some received among
    rw [← room exchange member] at part_eq
    obtain ⟨rfl, arrived⟩ := Exchange.recvReply_of_delivers (delivers exchange member) (named exchange member) part_eq
    exact ⟨exchange, member, inside, arrived⟩

/-- Two hosts with an entry each, and four characters of the buffer for each. -/
def twoHosts (push : Push) : List Exchange :=
  [⟨[("a".toList, false)], true, .done, "xxxx".toList⟩, ⟨[("b".toList, true)], true, push, "yyyy".toList⟩]

theorem named_twoHosts (push : Push) : ∀ exchange ∈ twoHosts push, Named exchange.entries := by
  unfold twoHosts Named
  simp only [List.forall_mem_cons]
  decide

theorem listing_answers_truthful_iff_two_hosts :
    (∀ exchange ∈ twoHosts .done, exchange.Truthful) ∧ ∀ added, collect false 4 (twoHosts .done) = some added →
      ∀ entry ∈ added, ∃ exchange ∈ twoHosts .done, entry ∈ exchange.entries ∧ exchange.Arrived := by
  refine (@listing_answers_truthful_iff false 4 (twoHosts .done) (by decide) (named_twoHosts .done)).mpr ?_
  intro exchange member _ left failed
  simp only [twoHosts, List.mem_cons, List.not_mem_nil, or_false] at member
  rcases member with rfl | rfl <;> cases failed

/-- The second push fails, and the client lists what its buffer held before. -/
theorem failed_push_listed : (twoHosts (.failed "yy\x00z".toList))[1]?.map Exchange.answer = some ((0, 1), "yy\x00z".toList) ∧
    ¬ filledBuff [("b".toList, true)] <+: "yy\x00z".toList ∧
    collect false 4 (twoHosts (.failed "yy\x00z".toList)) = some [("a".toList, false), ("y".toList, true)] := by decide

end GekkoFwd.Proofs.DirentTransfer
