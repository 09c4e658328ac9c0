import GekkoFwd.Proofs.IoPartition
import GekkoFwd.FileOps

/-! The loops of `gkfs_preadv` and `gkfs_pwritev` over a file that is read and written
as a flat sequence of bytes, compared with one transfer of all their buffers. -/

namespace GekkoFwd.Proofs.VectoredIo
open RpcProgram FileOps

/-- The length of all buffers together. -/
def span (iov : List (List Byte)) : Nat := (iov.map List.length).sum

@[simp] theorem span_cons (buf : List Byte) (iov : List (List Byte)) : span (buf :: iov) = buf.length + span iov := rfl

theorem length_flatten_iov (iov : List (List Byte)) : iov.flatten.length = span iov := List.length_flatten

/-- Between two offsets, transfers on an open file are those of a flat file, whose
contents are part of the daemons' state. -/
structure Flat {σ : Type} {deployment : Deployment} (server : Server Request σ) (client : Client deployment) (file : OpenFile)
    (content : σ → List Byte) (low high : Nat) : Prop where
  pread : ∀ state buf offset, 0 < buf.length → low ≤ offset → offset + buf.length ≤ high → ∃ after,
    server.exec (FileOps.gkfsPread client file buf (.ofNat 64 offset)) state =
      (some (.ok (.ofNat 64 (min buf.length ((content state).length - offset))), ByteFile.fill (content state) offset buf), after) ∧
    content after = content state
  pwrite : ∀ state buf offset, 0 < buf.length → low ≤ offset → offset + buf.length ≤ high → ∃ after,
    server.exec (FileOps.gkfsPwrite client file buf (.ofNat 64 offset)) state = (some (.ok (.ofNat 64 buf.length)), after) ∧
    content after = ByteFile.pwrite (content state) buf offset

section Loops
variable {σ : Type} {deployment : Deployment} {server : Server Request σ} {client : Client deployment} {file : OpenFile}
  {content : σ → List Byte} {low high : Nat}

theorem ofNat_ne_neg_one {count : Nat} (small : count < 2 ^ 63) : (BitVec.ofNat 64 count : Word) ≠ -1 := by
  intro same
  have value := congrArg BitVec.toNat same
  rw [Words.toNat_ofNat (by omega), show (-1 : Word).toNat = 2 ^ 64 - 1 from rfl] at value
  omega

section Steps
variable {transfer : List Byte → Word → Prog (SysResult Word × List Byte)} {buf : List Byte} {iov : List (List Byte)} {pos moved : Word}
  {state between after : σ}

theorem exec_vectored_nil {total : Word} {errno : Option Int} {rest : List (List Byte)}
    (ran : server.exec (vectored transfer iov pos moved) state = (some (total, errno, rest), after)) :
    server.exec (vectored transfer ([] :: iov) pos moved) state = (some (total, errno, [] :: rest), after) := by
  rw [vectored, if_pos List.length_nil, Program.bind_eq, Server.exec_bind, ran]
  rfl

theorem exec_vectored_full (room : buf.length ≠ 0) (limit : buf.length < 2 ^ 63) {filled : List Byte}
    (first : server.exec (transfer buf pos) state = (some (.ok (.ofNat 64 buf.length), filled), between))
    {total : Word} {errno : Option Int} {rest : List (List Byte)}
    (ran : server.exec (vectored transfer iov (pos + .ofNat 64 buf.length) (moved + .ofNat 64 buf.length)) between =
      (some (total, errno, rest), after)) :
    server.exec (vectored transfer (buf :: iov) pos moved) state = (some (total, errno, filled :: rest), after) := by
  have value : (BitVec.ofNat 64 buf.length : Word).toNat = buf.length := Words.toNat_ofNat (by omega)
  rw [vectored, if_neg room, Program.bind_eq, Server.exec_bind, first]
  simp only [if_neg (ofNat_ne_neg_one limit), value, Nat.lt_irrefl, if_false]
  rw [Program.bind_eq, Server.exec_bind, ran]
  rfl

theorem exec_vectored_short {count : Nat} (short : count < buf.length) (limit : buf.length < 2 ^ 63) {filled : List Byte}
    (last : server.exec (transfer buf pos) state = (some (.ok (.ofNat 64 count), filled), after)) :
    server.exec (vectored transfer (buf :: iov) pos moved) state = (some (moved + .ofNat 64 count, none, filled :: iov), after) := by
  have value : (BitVec.ofNat 64 count : Word).toNat = count := Words.toNat_ofNat (by omega)
  rw [vectored, if_neg (by omega), Program.bind_eq, Server.exec_bind, last]
  simp only [if_neg (ofNat_ne_neg_one (show count < 2 ^ 63 by omega)), value, if_pos short]
  rfl

end Steps

/-- The loop fills the buffers one behind the other, until the end of the file. -/
theorem exec_vectored_pread (flat : Flat server client file content low high) (iov : List (List Byte)) (pos moved : Nat) (state : σ)
    (least : low ≤ pos) (most : pos + span iov ≤ high) (limit : span iov < 2 ^ 63) :
    ∃ after, server.exec (vectored (FileOps.gkfsPread client file) iov (.ofNat 64 pos) (.ofNat 64 moved)) state =
      (some (.ofNat 64 (moved + min (span iov) ((content state).length - pos)), none, ByteFile.scatter (content state) pos iov), after) ∧
      content after = content state := by
  induction iov generalizing pos moved state with
  | nil => exact ⟨state, by simp [vectored, span, ByteFile.scatter], rfl⟩
  | cons buf iov ih =>
    rw [span_cons] at most limit ⊢
    rw [ByteFile.scatter]
    by_cases empty : buf.length = 0
    · obtain rfl := List.eq_nil_of_length_eq_zero empty
      obtain ⟨after, rest, kept⟩ := ih pos moved state least (by omega) (by omega)
      refine ⟨after, ?_, kept⟩
      rw [exec_vectored_nil rest]
      simp [ByteFile.fill, ByteFile.pread]
    · obtain ⟨between, first, same⟩ := flat.pread state buf pos (Nat.pos_of_ne_zero empty) least (by omega)
      by_cases short : (content state).length - pos < buf.length
      · rw [Nat.min_eq_right (Nat.le_of_lt short)] at first
        refine ⟨between, ?_, same⟩
        rw [exec_vectored_short short (by omega) first, ByteFile.scatter_past_end (by omega), ← BitVec.ofNat_add,
          Nat.min_eq_right (by omega)]
      · rw [Nat.min_eq_left (Nat.le_of_not_lt short)] at first
        obtain ⟨after, rest, kept⟩ := ih (pos + buf.length) (moved + buf.length) between (by omega) (by omega) (by omega)
        rw [BitVec.ofNat_add, BitVec.ofNat_add, same] at rest
        refine ⟨after, ?_, kept.trans same⟩
        rw [exec_vectored_full empty (by omega) first rest, ← Nat.add_min_add_left, Nat.add_assoc, ← Nat.add_min_add_left]
        congr 4
        omega

/-- Every buffer is written in full, so the loop runs to its end. -/
theorem exec_vectored_pwrite (flat : Flat server client file content low high) (iov : List (List Byte)) (pos moved : Nat) (state : σ)
    (least : low ≤ pos) (most : pos + span iov ≤ high) (limit : span iov < 2 ^ 63) :
    ∃ after, server.exec (vectored (fun buf pos => do return (← FileOps.gkfsPwrite client file buf pos, buf)) iov (.ofNat 64 pos)
        (.ofNat 64 moved)) state = (some (.ofNat 64 (moved + span iov), none, iov), after) ∧
      content after = ByteFile.pwrite (content state) iov.flatten pos := by
  induction iov generalizing pos moved state with
  | nil => exact ⟨state, by simp [vectored, span], by simp [ByteFile.pwrite]⟩
  | cons buf iov ih =>
    rw [span_cons] at most limit ⊢
    by_cases empty : buf.length = 0
    · obtain rfl := List.eq_nil_of_length_eq_zero empty
      obtain ⟨after, rest, kept⟩ := ih pos moved state least (by omega) (by omega)
      refine ⟨after, ?_, kept⟩
      rw [exec_vectored_nil rest, List.length_nil, Nat.zero_add]
    · obtain ⟨between, first, wrote⟩ := flat.pwrite state buf pos (Nat.pos_of_ne_zero empty) least (by omega)
      have transferred : server.exec (do return (← FileOps.gkfsPwrite client file buf (.ofNat 64 pos), buf)) state =
          (some (.ok (.ofNat 64 buf.length), buf), between) := by
        rw [Program.bind_eq, Server.exec_bind, first]
        rfl
      obtain ⟨after, rest, kept⟩ := ih (pos + buf.length) (moved + buf.length) between (by omega) (by omega) (by omega)
      rw [BitVec.ofNat_add, BitVec.ofNat_add] at rest
      refine ⟨after, ?_, ?_⟩
      · rw [exec_vectored_full empty (by omega) transferred rest, Nat.add_assoc]
      · rw [kept, wrote, List.flatten_cons, ByteFile.pwrite_append]

theorem toInt_ofNat_small {count : Nat} (small : count < 2 ^ 63) : (BitVec.ofNat 64 count : Word).toInt = count := by
  rw [BitVec.toInt_eq_toNat_of_lt] <;> rw [Words.toNat_ofNat] <;> omega

theorem ret_vectoredOutcome {count : Nat} (small : count < 2 ^ 63) :
    (vectoredOutcome (.ofNat 64 count) none).ret = if count = 0 then -1 else (count : Int) := by
  rw [vectoredOutcome, toInt_ofNat_small small]
  by_cases zero : count = 0
  · subst zero
    rfl
  · rw [if_neg zero, if_neg fun same => zero ?_]
    have value := congrArg BitVec.toNat same
    rwa [Words.toNat_ofNat (by omega)] at value

theorem exec_gkfsPreadv (flat : Flat server client file content low high) (iov : List (List Byte)) (offset : Nat) (state : σ)
    (least : low ≤ offset) (most : offset + span iov ≤ high) (limit : span iov < 2 ^ 63) :
    ∃ outcome after, server.exec (gkfsPreadv client file iov (.ofNat 64 offset)) state =
        (some (outcome, ByteFile.scatter (content state) offset iov), after) ∧ content after = content state ∧
      outcome.ret = if min (span iov) ((content state).length - offset) = 0 then -1
        else ((min (span iov) ((content state).length - offset) : Nat) : Int) := by
  obtain ⟨after, ran, kept⟩ := exec_vectored_pread flat iov offset 0 state least most limit
  rw [Nat.zero_add] at ran
  refine ⟨_, after, ?_, kept, ret_vectoredOutcome (by omega)⟩
  rw [gkfsPreadv, Program.bind_eq, Server.exec_bind, show (0 : Word) = .ofNat 64 0 from rfl, ran]
  rfl

theorem exec_gkfsPwritev (flat : Flat server client file content low high) (iov : List (List Byte)) (offset : Nat) (state : σ)
    (least : low ≤ offset) (most : offset + span iov ≤ high) (limit : span iov < 2 ^ 63) :
    ∃ outcome after, server.exec (gkfsPwritev client file iov (.ofNat 64 offset)) state = (some outcome, after) ∧
      content after = ByteFile.pwrite (content state) iov.flatten offset ∧
      outcome.ret = if span iov = 0 then -1 else (span iov : Int) := by
  obtain ⟨after, ran, wrote⟩ := exec_vectored_pwrite flat iov offset 0 state least most limit
  rw [Nat.zero_add] at ran
  refine ⟨_, after, ?_, wrote, ret_vectoredOutcome limit⟩
  rw [gkfsPwritev, Program.bind_eq, Server.exec_bind, show (0 : Word) = .ofNat 64 0 from rfl, ran]
  rfl

end Loops

/-- A vectored read returns what one read of all its buffers returns exactly when it
starts before the end of the file. It always leaves the same bytes, and a vectored
write returns the same and leaves the same file as one write of all its buffers. -/
theorem vectored_eq_plain_iff {σ : Type} {deployment : Deployment} {server : Server Request σ} {client : Client deployment}
    {file : OpenFile} {content : σ → List Byte} {iov : List (List Byte)} {offset : Nat} (state : σ) (nonempty : 0 < span iov)
    (limit : span iov < 2 ^ 63) (flat : Flat server client file content offset (offset + span iov)) :
    (∃ outcome filled after ret buf plainAfter,
      server.exec (gkfsPreadv client file iov (.ofNat 64 offset)) state = (some (outcome, filled), after) ∧
      server.exec (FileOps.gkfsPread client file iov.flatten (.ofNat 64 offset)) state = (some (ret, buf), plainAfter) ∧
      filled.flatten = buf ∧ filled.map List.length = iov.map List.length ∧ content after = content plainAfter ∧
      (outcome.ret = (Outcome.ofResult BitVec.toInt ret).ret ↔ offset < (content state).length)) ∧
    ∃ outcome after ret plainAfter,
      server.exec (gkfsPwritev client file iov (.ofNat 64 offset)) state = (some outcome, after) ∧
      server.exec (FileOps.gkfsPwrite client file iov.flatten (.ofNat 64 offset)) state = (some ret, plainAfter) ∧
      outcome.ret = (Outcome.ofResult BitVec.toInt ret).ret ∧ content after = content plainAfter := by
  have length := length_flatten_iov iov
  constructor
  · obtain ⟨outcome, after, ran, kept, ret⟩ := exec_gkfsPreadv flat iov offset state (Nat.le_refl _) (Nat.le_refl _) limit
    obtain ⟨plainAfter, plain, same⟩ := flat.pread state iov.flatten offset (by omega) (Nat.le_refl _) (by omega)
    rw [length] at plain
    refine ⟨outcome, _, after, _, _, plainAfter, ran, plain, ByteFile.flatten_scatter _ _ _, ByteFile.map_length_scatter _ _ _,
      kept.trans same.symm, ?_⟩
    rw [ret, Outcome.ofResult, toInt_ofNat_small (by omega)]
    by_cases before : offset < (content state).length
    · rw [if_neg (by omega)]
      exact iff_of_true rfl before
    · have nothing : min (span iov) ((content state).length - offset) = 0 := by omega
      rw [if_pos nothing, nothing]
      exact iff_of_false (by decide) before
  · obtain ⟨outcome, after, ran, wrote, ret⟩ := exec_gkfsPwritev flat iov offset state (Nat.le_refl _) (Nat.le_refl _) limit
    obtain ⟨plainAfter, plain, same⟩ := flat.pwrite state iov.flatten offset (by omega) (Nat.le_refl _) (by omega)
    rw [length] at plain
    refine ⟨outcome, after, _, plainAfter, ran, plain, ?_, wrote.trans same.symm⟩
    rw [ret, if_neg (by omega), Outcome.ofResult, toInt_ofNat_small limit]

/-- One daemon that has the whole file. -/
def whole : Server Request (List Byte) where
  handle _ request content :=
    match request with
    | .updateMetadentrySize _ size offset _ => (some (0, size + offset), content)
    | .writeData input buf =>
      (some (0, input.bulkSize), ByteFile.pwrite content buf (input.chunkStart.toNat * chunksize + input.offset.toNat))
    | .readData input =>
      let data := ByteFile.pread content input.bulkSize.toNat (input.chunkStart.toNat * chunksize + input.offset.toNat)
      (some (0, .ofNat 64 data.length, [(0, data)]), content)
    | _ => (none, content)

/-- All chunks go to the first of two hosts. -/
def lone : Client (.pair fun _ => 0) := .first _

theorem locateData_lone (path : Str) (c : Nat) : lone.locateData path c = 0 := rfl

theorem inputs_lone (path : Str) (range : ChunkPartition.IoRange) : ∃ input,
    ForwardSplit.inputs (lone.locateData path) 2 path (.ofNat 64 range.offset) (.ofNat 64 range.size) = some [(0, input)] ∧
    input.chunkStart.toNat * chunksize + input.offset.toNat = range.offset ∧ input.bulkSize = .ofNat 64 range.size := by
  obtain ⟨targets, request, final, dispatch⟩ := IoPartition.exists_dispatch lone path range
  have single : targets = [0] := by
    refine List.perm_singleton.mp ((List.perm_ext_iff_of_nodup dispatch.distinct (List.nodup_singleton 0)).mpr fun target => ?_)
    rw [dispatch.mem_targets, List.mem_singleton]
    constructor
    · rintro ⟨c, _, located⟩
      exact located.symm.trans (locateData_lone path c)
    · rintro rfl
      exact ⟨range.split.first, ⟨Nat.le_refl _, range.split.first_le_last⟩, locateData_lone path _⟩
  have announces := (dispatch.addressed 0).announces
  have inputs := dispatch.inputs
  have small := range.last_small
  have ordered := range.split.first_le_last
  have padding := range.split.lpad_lt
  rw [single] at inputs
  refine ⟨request 0, inputs, ?_, announces.bulkSize⟩
  rw [announces.chunkStart, announces.offset, Words.toNat_ofNat (by omega), Words.toNat_ofNat (by simp [chunksize] at padding; omega)]
  exact Nat.div_add_mod' range.offset chunksize

theorem exec_pread_whole (path : Str) (content buf : List Byte) {offset : Nat} (positive : 0 < buf.length)
    (fits : offset + buf.length < 2 ^ 63) :
    whole.exec (FileOps.gkfsPread lone (.opened path) buf (.ofNat 64 offset)) content =
      (some (.ok (.ofNat 64 (min buf.length (content.length - offset))), ByteFile.fill content offset buf), content) := by
  obtain ⟨input, inputs, start, bulk⟩ := inputs_lone path ⟨offset, buf.length, positive, fits⟩
  dsimp only at inputs start bulk
  have size : input.bulkSize.toNat = buf.length := by rw [bulk, Words.toNat_ofNat (by omega)]
  have asked : Transfer.inputs (.forwardRead (.ofNat 64 offset) (.ofNat 64 buf.length)) lone path = some [(0, input)] := inputs
  show whole.exec (ClientOps.gkfsPread lone path buf (.ofNat 64 offset)) content = _
  rw [ClientOps.gkfsPread, ClientOps.forwardRead]
  simp only [asked, Option.elim_some, List.map_cons, List.map_nil, Server.exec_post_one, whole, size, start,
    Program.pure_eq, Server.exec_pure, Option.map_some, ClientOps.collectSizes, ClientOps.receive, List.flatMap_cons,
    List.flatMap_nil, Option.getD_some, List.append_nil, ByteFile.pwriteAll, List.foldl_cons, List.foldl_nil,
    ByteFile.pwrite_pread, ByteFile.length_pread, ne_eq, not_true_eq_false, if_false]
  rw [show ∀ word : Word, word + 0 = word from BitVec.add_zero]

theorem exec_pwrite_whole (path : Str) (content buf : List Byte) {offset : Nat} (positive : 0 < buf.length)
    (fits : offset + buf.length < 2 ^ 63) :
    whole.exec (FileOps.gkfsPwrite lone (.opened path) buf (.ofNat 64 offset)) content =
      (some (.ok (.ofNat 64 buf.length)), ByteFile.pwrite content buf offset) := by
  obtain ⟨input, inputs, start, bulk⟩ := inputs_lone path ⟨offset, buf.length, positive, fits⟩
  have asked : Transfer.inputs (.forwardWrite false (.ofNat 64 offset) (.ofNat 64 buf.length)
      (.ofNat 64 buf.length + .ofNat 64 offset)) lone path = some [(0, input)] := by
    rw [Transfer.inputs, Transfer.offset, if_neg Bool.false_ne_true, BitVec.add_comm, BitVec.add_sub_cancel]
    exact inputs
  have asserted : ∀ condition, ClientOps.assertClient (.pair fun _ => 0) condition = .pure () := fun _ => rfl
  dsimp only at start bulk
  show whole.exec (ClientOps.gkfsPwrite lone path false buf (.ofNat 64 offset)) content = _
  rw [ClientOps.gkfsPwrite, ClientOps.forwardUpdateMetadentrySize]
  simp only [Program.bind_eq, Program.call_bind, Program.bind, Server.exec_post_one, whole, List.headD_cons,
    ne_eq, not_true_eq_false, if_false, Program.pure_eq, ClientOps.forwardWrite, asserted, asked, Option.elim_some, List.map_cons,
    List.map_nil, Server.exec_pure, start, bulk, ClientOps.collectSizes]
  rw [show ∀ word : Word, word + 0 = word from BitVec.add_zero]

theorem flat_whole (path : Str) {low high : Nat} (fits : high < 2 ^ 63) : Flat whole lone (.opened path) id low high :=
  ⟨fun content buf offset positive _ most => ⟨content, exec_pread_whole path content buf positive (by omega), rfl⟩,
    fun content buf offset positive _ most => ⟨_, exec_pwrite_whole path content buf positive (by omega), rfl⟩⟩

/-- Three buffers, one of them empty, from the second byte of a file of four. -/
theorem vectored_eq_plain_iff_inside : 0 < span [[0], [], [0, 0]] ∧ span [[0], [], [0, 0]] < 2 ^ 63 ∧
    Flat whole lone (.opened "/file".toList) id 1 (1 + span [[0], [], [0, 0]]) ∧
    ∃ outcome filled after ret buf plainAfter,
      whole.exec (gkfsPreadv lone (.opened "/file".toList) [[0], [], [0, 0]] (.ofNat 64 1)) [1, 2, 3, 4] = (some (outcome, filled), after) ∧
      whole.exec (FileOps.gkfsPread lone (.opened "/file".toList) [0, 0, 0] (.ofNat 64 1)) [1, 2, 3, 4] = (some (ret, buf), plainAfter) ∧
      outcome.ret = (Outcome.ofResult BitVec.toInt ret).ret := by
  have nonempty : 0 < span [[0], [], [0, 0]] := by decide
  have limit : span [[0], [], [0, 0]] < 2 ^ 63 := by decide
  have flat : Flat whole lone (.opened "/file".toList) id 1 (1 + span [[0], [], [0, 0]]) := flat_whole _ (by decide)
  obtain ⟨outcome, filled, after, ret, buf, plainAfter, ran, plain, _, _, _, iff⟩ :=
    (vectored_eq_plain_iff [1, 2, 3, 4] nonempty limit flat).1
  exact ⟨nonempty, limit, flat, outcome, filled, after, ret, buf, plainAfter, ran, plain, iff.mpr (by decide)⟩

/-- At the end of a file a read returns zero and a vectored read a failure. -/
theorem preadv_fails_at_end : ∃ outcome filled after,
    whole.exec (gkfsPreadv lone (.opened "/file".toList) [[0]] (.ofNat 64 0)) [] = (some (outcome, filled), after) ∧
    whole.exec (FileOps.gkfsPread lone (.opened "/file".toList) [0] (.ofNat 64 0)) [] = (some (.ok 0, [0]), []) ∧
    outcome.ret = -1 := by
  have flat : Flat whole lone (.opened "/file".toList) id 0 1 := flat_whole _ (by decide)
  obtain ⟨outcome, after, ran, _, ret⟩ := exec_gkfsPreadv flat [[0]] 0 [] (Nat.le_refl 0) (by decide) (by decide)
  exact ⟨outcome, _, after, ran, exec_pread_whole _ [] [0] (by decide) (by decide), ret⟩

end GekkoFwd.Proofs.VectoredIo
