import Mathlib.Algebra.BigOperators.Ring.List
import GekkoFwd.Proofs.DirectoryRecords

/-! Calls of `gkfs_getdents` and `gkfs_getdents64` one after the other. -/

namespace GekkoFwd.Proofs.DirectoryCalls
open DirRecords DirectoryRecords FileOps

/-! The loop on the level of the entries. -/

section fill
variable (totalSize : Str → Nat) (count : Nat) (entries : List (Str × Bool)) (written : Nat)

theorem fillDirents_prefix : (fillDirents totalSize count entries written).2 <+: entries := by
  induction entries generalizing written with
  | nil => exact List.nil_prefix
  | cons entry entries ih =>
    rw [fillDirents]
    split
    · exact List.nil_prefix
    · exact (List.prefix_cons_inj entry).mpr (ih _)

theorem fillDirents_written : (fillDirents totalSize count entries written).1 =
    written + ((fillDirents totalSize count entries written).2.map fun entry => totalSize entry.1).sum := by
  induction entries generalizing written with
  | nil => rfl
  | cons entry entries ih =>
    rw [fillDirents]
    split
    · rfl
    · rw [ih, List.map_cons, List.sum_cons, Nat.add_assoc]

theorem fillDirents_le (fits : written ≤ count) : (fillDirents totalSize count entries written).1 ≤ count := by
  induction entries generalizing written with
  | nil => exact fits
  | cons entry entries ih =>
    rw [fillDirents]
    split
    · exact fits
    · exact ih _ (by omega)

theorem fillDirents_eq_nil {entry : Str × Bool} :
    (fillDirents totalSize count (entry :: entries) written).2 = [] ↔ count - written < totalSize entry.1 := by
  rw [fillDirents]
  split
  next short => simp [short]
  next fits => simp [fits]

end fill

/-- An open directory between calls. -/
structure Open (openDir : OpenFile) : Prop where
  type : openDir.type = .directory
  received : Received openDir.entries
  short : ∀ entry ∈ openDir.entries, entry.1.length ≤ Path.maxLength
  pos : openDir.pos.toNat ≤ openDir.entries.length

namespace Open
variable {openDir : OpenFile} (dir : Open openDir)
include dir

theorem length_lt : openDir.entries.length < 2 ^ 32 := by
  have bound := dir.received.outSize_le
  rw [Dirents.outSize, ClientOps.direntsBuffSize] at bound
  omega

theorem sizes_lt (layout : Layout) : sizes layout openDir.entries < 2 ^ 31 := by
  have bound := dir.received.outSize_le
  have each : sizes layout openDir.entries ≤ (openDir.entries.map fun entry => 14 * (entry.1.length + 2)).sum :=
    List.sum_le_sum fun entry _ => totalSize_le layout entry.1
  rw [List.sum_map_mul_left, ← DirectoryListing.outSize_eq_sum] at each
  rw [ClientOps.direntsBuffSize] at bound
  omega

end Open

section calls
variable (layout : Layout) (hash : Str → Word) {openDir : OpenFile}

/-- The loop with its machine words writes the records of the entries that `fillDirents` takes. -/
theorem loop_eq (dir : Open openDir) (count : BitVec 32) {done rest : List (Str × Bool)} (split : openDir.entries = done ++ rest)
    {written fuel : Nat} (enough : rest.length ≤ fuel) (fits : written ≤ count.toNat) (memory : Nat → Char) :
    Scan.loop layout hash openDir count fuel ⟨.ofNat 64 done.length, .ofNat 32 written, memory⟩ =
      some ⟨.ofNat 64 (done.length + (fillDirents layout.totalSize count.toNat rest written).2.length),
        .ofNat 32 (fillDirents layout.totalSize count.toNat rest written).1,
        putRecords layout hash openDir (fillDirents layout.totalSize count.toNat rest written).2 done.length written memory⟩ := by
  have few := dir.length_lt
  induction rest generalizing done written fuel memory with
  | nil =>
    rw [List.append_nil] at split
    cases fuel with
    | zero => rfl
    | succ fuel =>
      have position : (BitVec.ofNat 64 done.length).toNat = done.length := Words.toNat_ofNat (by rw [← split]; omega)
      rw [Scan.loop, if_pos (by rw [position, split])]
      rfl
  | cons entry rest ih =>
    obtain ⟨fuel, rfl⟩ := Nat.exists_eq_add_of_le' (Nat.le_trans (Nat.le_add_left 1 _) enough)
    have length := congrArg List.length split
    rw [List.length_append, List.length_cons] at length
    have position : (BitVec.ofNat 64 done.length).toNat = done.length := Words.toNat_ofNat (by omega)
    have total : (BitVec.ofNat 32 written).toNat = written := Words.toNat_ofNat (by omega)
    have room : (count - BitVec.ofNat 32 written).toNat = count.toNat - written := by
      rw [BitVec.toNat_sub_of_le (by rw [BitVec.le_def, total]; exact fits), total]
    have here : openDir.entries[done.length]? = some entry := by rw [split]; simp
    rw [Scan.loop, if_neg (by rw [position]; omega), position, Nat.mod_eq_of_lt (by omega), here, fillDirents]
    simp only [Option.bind_eq_bind, Option.bind_some, room, total]
    split
    · rfl
    · have next := @ih (done ++ [entry]) (by rw [split]; simp) (written + layout.totalSize entry.1) fuel (by simpa using enough)
        (by omega) (putRecord layout (hash (inodePath openDir entry.1)) entry (.ofNat 64 (done.length + 1)) written memory)
      rw [List.length_append, List.length_singleton] at next
      have position : BitVec.ofNat 64 done.length + 1 = BitVec.ofNat 64 (done.length + 1) := by simp [BitVec.ofNat_add]
      rw [position, ← BitVec.ofNat_add, next, List.length_cons, Nat.add_right_comm, Nat.add_assoc]
      rfl

theorem length_le_sizes (entries : List (Str × Bool)) : entries.length ≤ sizes layout entries := by
  induction entries with
  | nil => exact Nat.zero_le _
  | cons entry entries ih =>
    have positive := (shaped_totalSize layout entry.1).nameWithin
    simp only [sizes, List.map_cons, List.sum_cons, List.length_cons] at ih ⊢
    omega

theorem sizes_eq_zero {entries : List (Str × Bool)} : sizes layout entries = 0 ↔ entries = [] := by
  refine ⟨fun none => ?_, fun empty => by rw [empty]; rfl⟩
  exact List.eq_nil_of_length_eq_zero (Nat.eq_zero_of_le_zero (none ▸ length_le_sizes layout entries))

/-- What a call says of the entries that it takes. -/
theorem getdentsEntriesWith_listed (dir : Open openDir) (more : openDir.pos.toNat < openDir.entries.length) (count : Nat) :
    ∃ listed, fillDirents layout.totalSize count (openDir.entries.drop openDir.pos.toNat) 0 = (sizes layout listed, listed) ∧
      listed <+: openDir.entries.drop openDir.pos.toNat ∧ sizes layout listed ≤ count ∧
      (listed = [] ↔ ∃ entry, openDir.entries[openDir.pos.toNat]? = some entry ∧ count < layout.totalSize entry.1) ∧
      getdentsEntriesWith layout.totalSize openDir count =
        if listed = [] then (⟨-1, some Errno.einval⟩, openDir, [])
        else (⟨sizes layout listed, none⟩, { openDir with pos := openDir.pos + .ofNat 64 listed.length }, listed) := by
  have written := fillDirents_written layout.totalSize count (openDir.entries.drop openDir.pos.toNat) 0
  have within := fillDirents_le layout.totalSize count (openDir.entries.drop openDir.pos.toNat) 0 (Nat.zero_le _)
  rw [Nat.zero_add] at written
  have filled : fillDirents layout.totalSize count (openDir.entries.drop openDir.pos.toNat) 0 =
      (sizes layout (fillDirents layout.totalSize count (openDir.entries.drop openDir.pos.toNat) 0).2, _) :=
    Prod.ext written rfl
  refine ⟨_, filled, fillDirents_prefix .., written.symm.trans_le within, ?_, ?_⟩
  · rw [List.drop_eq_getElem_cons more, fillDirents_eq_nil, Nat.sub_zero, List.getElem?_eq_getElem more]
    simp
  · rw [getdentsEntriesWith, if_neg (not_not.mpr dir.type), if_neg (Nat.not_le.mpr more), filled]
    simp only [sizes_eq_zero]

/-- A call does what `getdentsEntriesWith` says of the entries, and writes their records. -/
theorem getdents_eq (dir : Open openDir) (count : BitVec 32) (memory : Nat → Char) :
    layout.getdents hash openDir count memory =
      some ((getdentsEntriesWith layout.totalSize openDir count.toNat).1, (getdentsEntriesWith layout.totalSize openDir count.toNat).2.1,
        putRecords layout hash openDir (getdentsEntriesWith layout.totalSize openDir count.toNat).2.2 openDir.pos.toNat 0 memory) := by
  rw [Layout.getdents_eq_getdentsWith]
  have directory : ¬ openDir.type ≠ .directory := not_not.mpr dir.type
  by_cases ended : openDir.entries.length ≤ openDir.pos.toNat
  · simp only [getdentsWith, getdentsEntriesWith, if_neg directory, if_pos ended, putRecords]
  have position : (openDir.entries.take openDir.pos.toNat).length = openDir.pos.toNat :=
    List.length_take_of_le (Nat.le_of_not_le ended)
  have looped := loop_eq layout hash dir count (List.take_append_drop openDir.pos.toNat openDir.entries).symm
    ((List.drop_sublist _ _).length_le) (Nat.zero_le count.toNat) memory
  obtain ⟨listed, filled, part, _, _, returned⟩ := getdentsEntriesWith_listed layout dir (Nat.lt_of_not_le ended) count.toNat
  rw [position, filled, BitVec.ofNat_toNat, BitVec.setWidth_eq] at looped
  have small : sizes layout listed < 2 ^ 31 := by
    refine Nat.lt_of_le_of_lt ?_ (dir.sizes_lt layout)
    exact ((part.sublist.trans (List.drop_sublist _ _)).map _).sum_le_sum fun _ _ => Nat.zero_le _
  have returnedInt : (BitVec.ofNat 32 (sizes layout listed)).toInt = sizes layout listed := by
    rw [BitVec.toInt_eq_toNat_of_lt (by rw [Words.toNat_ofNat (by omega)]; omega), Words.toNat_ofNat (by omega)]
  have nothing : BitVec.ofNat 32 (sizes layout listed) = 0 ↔ listed = [] := by
    rw [← sizes_eq_zero layout]
    exact Words.ofNat_inj (b := 0) (by omega) (by omega)
  rw [getdentsWith, if_neg directory, if_neg ended, returned]
  refine (congrArg (Option.map _) looped).trans ?_
  by_cases empty : listed = []
  · simp only [Option.map_some, nothing, if_pos empty]
    rw [empty]
  · simp only [Option.map_some, nothing, if_neg empty, returnedInt]
    rw [BitVec.ofNat_add, BitVec.ofNat_toNat, BitVec.setWidth_eq]

/-- What a caller reads in a buffer after a call. -/
def decode (outcome : Outcome) (memory : Nat → Char) : Option (List Record) :=
  readRecords layout memory outcome.ret.toNat outcome.ret.toNat 0

/-- The records of a directory. -/
def records (openDir : OpenFile) : List Record := openDir.entries.mapIdx (recordOf layout hash openDir)

/-- What a call returns and does to the memory and the position. -/
structure Answers (openDir : OpenFile) (count : BitVec 32) (memory : Nat → Char) (outcome : Outcome) (after : OpenFile)
    (written : Nat → Char) : Prop where
  kept : ∀ cell : Nat, outcome.ret ≤ cell → written cell = memory cell
  within : outcome.ret ≤ count.toNat
  ended : outcome.ret = 0 ↔ openDir.entries.length ≤ openDir.pos.toNat
  refused : outcome.ret < 0 ↔ ∃ entry, openDir.entries[openDir.pos.toNat]? = some entry ∧ count.toNat < layout.totalSize entry.1
  failure : outcome.ret < 0 → outcome = ⟨-1, some Errno.einval⟩ ∧ after = openDir
  moved : after = { openDir with pos := after.pos } ∧ openDir.pos.toNat ≤ after.pos.toNat ∧ after.pos.toNat ≤ openDir.entries.length
  forward : 0 < outcome.ret → openDir.pos.toNat < after.pos.toNat
  decoded : decode layout outcome written = some (((records layout hash openDir).take after.pos.toNat).drop openDir.pos.toNat)

def Answered (openDir : OpenFile) (count : BitVec 32) (memory : Nat → Char) : Prop :=
  ∃ outcome after written, layout.getdents hash openDir count memory = some (outcome, after, written) ∧
    Answers layout hash openDir count memory outcome after written

theorem records_slice {done listed behind : List (Str × Bool)} (split : openDir.entries = done ++ (listed ++ behind)) :
    ((records layout hash openDir).take (done.length + listed.length)).drop done.length =
      listed.mapIdx fun offset => recordOf layout hash openDir (offset + done.length) := by
  rw [records, split, List.mapIdx_append, List.mapIdx_append, ← List.append_assoc, List.take_left' (by simp), List.drop_left' (by simp)]

theorem answers_unmoved (dir : Open openDir) {count : BitVec 32} {memory : Nat → Char} {outcome : Outcome} (none : outcome.ret ≤ 0)
    (ended : outcome.ret = 0 ↔ openDir.entries.length ≤ openDir.pos.toNat)
    (refused : outcome.ret < 0 ↔ ∃ entry, openDir.entries[openDir.pos.toNat]? = some entry ∧ count.toNat < layout.totalSize entry.1)
    (failure : outcome.ret < 0 → outcome = ⟨-1, some Errno.einval⟩) :
    Answers layout hash openDir count memory outcome openDir memory where
  kept _ _ := rfl
  within := by omega
  ended := ended
  refused := refused
  failure failed := ⟨failure failed, rfl⟩
  moved := ⟨rfl, Nat.le_refl _, dir.pos⟩
  forward positive := absurd positive (Int.not_lt.mpr none)
  decoded := by
    rw [decode, Int.toNat_of_nonpos none, List.drop_take, Nat.sub_self, List.take_zero]
    rfl

theorem answers_listed (dir : Open openDir) (more : openDir.pos.toNat < openDir.entries.length) {count : BitVec 32} (memory : Nat → Char)
    {listed : List (Str × Bool)} (some_listed : listed ≠ []) (part : listed <+: openDir.entries.drop openDir.pos.toNat)
    (within : sizes layout listed ≤ count.toNat)
    (nothing : listed = [] ↔ ∃ entry, openDir.entries[openDir.pos.toNat]? = some entry ∧ count.toNat < layout.totalSize entry.1) :
    Answers layout hash openDir count memory ⟨sizes layout listed, none⟩ { openDir with pos := openDir.pos + .ofNat 64 listed.length }
      (putRecords layout hash openDir listed openDir.pos.toNat 0 memory) := by
  obtain ⟨behind, split⟩ := part
  have whole : openDir.entries = openDir.entries.take openDir.pos.toNat ++ (listed ++ behind) := by
    rw [split, List.take_append_drop]
  have position : (openDir.entries.take openDir.pos.toNat).length = openDir.pos.toNat := List.length_take_of_le (Nat.le_of_lt more)
  have length := congrArg List.length split
  rw [List.length_append, List.length_drop] at length
  have few := dir.length_lt
  have next : (openDir.pos + .ofNat 64 listed.length).toNat = openDir.pos.toNat + listed.length := by
    rw [BitVec.toNat_add, Words.toNat_ofNat (by omega), Nat.mod_eq_of_lt (by omega)]
  have among : ∀ entry ∈ listed, entry ∈ openDir.entries := fun entry member => by
    rw [whole]
    exact List.mem_append_right _ (List.mem_append_left _ member)
  have plain : ∀ entry ∈ listed, Dirents.nul ∉ entry.1 := fun entry member => dir.received.plain entry (among entry member)
  refine ⟨?_, Int.ofNat_le.mpr within, ?_, ?_, ?_, ?_, ?_, ?_⟩
  · intro cell behindRecords
    exact putRecords_outside layout hash openDir plain _ _ _ (.inr (by simpa using behindRecords))
  · have some_written : sizes layout listed ≠ 0 := (sizes_eq_zero layout).not.mpr some_listed
    simp [some_written, more]
  · rw [← nothing]
    simp [some_listed]
  · exact fun failed => absurd failed (Int.not_lt.mpr (Int.natCast_nonneg _))
  · exact ⟨rfl, by simp only [next]; omega, by simp only [next]; omega⟩
  · intro _
    have positive := List.length_pos_of_ne_nil some_listed
    simp only [next]
    omega
  · have read := readRecords_putRecords layout hash openDir plain (fun entry member => dir.short entry (among entry member))
      (by omega : openDir.pos.toNat + listed.length < 2 ^ 64) (length_le_sizes layout listed) 0 memory
    have slice := records_slice layout hash whole
    rw [position] at slice
    rw [Nat.zero_add] at read
    simp only [decode, Int.toNat_natCast, next]
    rw [read, slice]

theorem answered (dir : Open openDir) (count : BitVec 32) (memory : Nat → Char) : Answered layout hash openDir count memory := by
  rw [Answered, getdents_eq layout hash dir]
  refine ⟨_, _, _, rfl, ?_⟩
  by_cases ended : openDir.entries.length ≤ openDir.pos.toNat
  · have returned : getdentsEntriesWith layout.totalSize openDir count.toNat = (⟨0, none⟩, openDir, []) := by
      rw [getdentsEntriesWith, if_neg (not_not.mpr dir.type), if_pos ended]
    rw [returned]
    refine answers_unmoved layout hash dir (Int.le_refl 0) (by simp [ended]) ?_ fun failed => absurd failed (Int.lt_irrefl 0)
    simp [List.getElem?_eq_none ended]
  have more := Nat.lt_of_not_le ended
  obtain ⟨listed, _, part, within, nothing, returned⟩ := getdentsEntriesWith_listed layout dir more count.toNat
  rw [returned]
  by_cases empty : listed = []
  · rw [if_pos empty]
    refine answers_unmoved layout hash dir (show (-1 : Int) ≤ 0 by decide) ?_ ?_ fun _ => rfl
    · simpa using more
    · rw [← nothing]
      simp [empty]
  · rw [if_neg empty]
    exact answers_listed layout hash dir more memory empty part within nothing

/-- Calls with buffers of any size and content, and what the caller reads in them. -/
def enumerate (openDir : OpenFile) : List (BitVec 32 × (Nat → Char)) → Option (List Record × OpenFile)
  | [] => some ([], openDir)
  | (count, memory) :: calls => do
    let (outcome, openDir, memory) ← layout.getdents hash openDir count memory
    let listed ← decode layout outcome memory
    let (later, openDir) ← enumerate openDir calls
    return (listed ++ later, openDir)

end calls

theorem Open.at {openDir : OpenFile} (dir : Open openDir) {pos : Word} (inside : pos.toNat ≤ openDir.entries.length) :
    Open { openDir with pos } :=
  ⟨dir.type, dir.received, dir.short, inside⟩

theorem slice_append {α : Type} {values : List α} {first second third : Nat} (forth : first ≤ second) (later : second ≤ third)
    (inside : second ≤ values.length) :
    (values.take second).drop first ++ (values.take third).drop second = (values.take third).drop first := by
  have parts := List.take_append_drop second (values.take third)
  rw [List.take_take, Nat.min_eq_left later] at parts
  nth_rewrite 2 [← parts]
  rw [List.drop_append_of_le_length (by rw [List.length_take_of_le inside]; exact forth)]

theorem enumerate_eq (layout : Layout) (hash : Str → Word) {openDir : OpenFile} (dir : Open openDir)
    (calls : List (BitVec 32 × (Nat → Char))) :
    ∃ pos : Word, openDir.pos.toNat ≤ pos.toNat ∧ pos.toNat ≤ openDir.entries.length ∧
      enumerate layout hash openDir calls =
        some (((records layout hash openDir).take pos.toNat).drop openDir.pos.toNat, { openDir with pos }) := by
  induction calls generalizing openDir with
  | nil =>
    refine ⟨openDir.pos, Nat.le_refl _, dir.pos, ?_⟩
    rw [List.drop_take, Nat.sub_self, List.take_zero]
    rfl
  | cons call calls ih =>
    obtain ⟨outcome, after, written, called, answers⟩ := answered layout hash dir call.1 call.2
    obtain ⟨same, forth, inside⟩ := answers.moved
    obtain ⟨middle, rfl⟩ : ∃ middle, after = { openDir with pos := middle } := ⟨after.pos, same⟩
    obtain ⟨pos, later, within, rest⟩ := ih (dir.at inside)
    refine ⟨pos, Nat.le_trans forth later, within, ?_⟩
    have joined := slice_append forth later (by rw [records, List.length_mapIdx]; exact inside : _ ≤ (records layout hash openDir).length)
    simp only [enumerate, called, answers.decoded, rest, Option.bind_eq_bind, Option.bind_some, Option.pure_def]
    rw [← joined]
    rfl

/-- The name and the flag that a record stands for. -/
def Record.entry (record : Record) : Str × Bool := (record.name, record.type == dtDir)

theorem map_entry_records (layout : Layout) (hash : Str → Word) (openDir : OpenFile) :
    (records layout hash openDir).map Record.entry = openDir.entries := by
  refine List.ext_getElem (by simp [records]) fun index _ inside => ?_
  have flag : ((if openDir.entries[index].2 then dtDir else dtReg) == dtDir) = openDir.entries[index].2 := by
    cases openDir.entries[index].2 <;> rfl
  simp only [records, List.getElem_map, List.getElem_mapIdx, recordOf, Record.entry, flag]

/-- Calls of `getdents` or `getdents64` with buffers of any size go through the entries in order
and once, answer as they should at every point, and go on behind a record whose position is
sought. -/
theorem getdents_enumerates {deployment : Deployment} (client : Client deployment) (layout : Layout) (hash : Str → Word)
    {openDir : OpenFile} (dir : Open openDir) (calls : List (BitVec 32 × (Nat → Char))) :
    ∃ (seen : List Record) (reached : OpenFile), enumerate layout hash openDir calls = some (seen, reached) ∧
      reached = { openDir with pos := reached.pos } ∧
      seen = ((records layout hash openDir).take reached.pos.toNat).drop openDir.pos.toNat ∧
      seen.map Record.entry = (openDir.entries.take reached.pos.toNat).drop openDir.pos.toNat ∧
      (∀ record ∈ seen, Shaped layout record.name.length record.reclen) ∧
      (∀ count memory, Answered layout hash reached count memory) ∧
      ∀ record ∈ seen, ∃ index result sought, (records layout hash openDir)[index]? = some record ∧
        gkfsLseek client reached (.ofNat 64 record.off) .seekSet = pure (result, sought) ∧
        sought = { openDir with pos := sought.pos } ∧ sought.pos.toNat = index + 1 ∧
        ∀ count memory, Answered layout hash sought count memory := by
  obtain ⟨pos, forth, inside, enumerated⟩ := enumerate_eq layout hash dir calls
  refine ⟨_, _, enumerated, rfl, rfl, ?_, ?_, ?_, ?_⟩
  · rw [List.map_drop, List.map_take, map_entry_records]
  · intro record member
    obtain ⟨index, _, rfl⟩ := List.mem_mapIdx.mp (List.mem_of_mem_take (List.mem_of_mem_drop member))
    exact shaped_totalSize layout _
  · exact fun count memory => answered layout hash (dir.at inside) count memory
  · intro record member
    obtain ⟨index, below, rfl⟩ := List.mem_mapIdx.mp (List.mem_of_mem_take (List.mem_of_mem_drop member))
    have few := dir.length_lt
    have position : (BitVec.ofNat 64 (index + 1)).toNat = index + 1 := Words.toNat_ofNat (by omega)
    refine ⟨index, _, _, ?_, rfl, rfl, position, fun count memory => answered layout hash (dir.at ?_) count memory⟩
    · rw [records, List.getElem?_mapIdx, List.getElem?_eq_getElem below]
      rfl
    · exact position.trans_le below

/-- A file and a directory below `/d`, just opened. -/
def opened : OpenFile := ⟨"/d".toList, .directory, false, 0, [("a".toList, false), ("sub".toList, true)]⟩

theorem open_opened : Open opened where
  type := rfl
  received := by
    refine ⟨true, [some (0, 2, Dirents.outBuff opened.entries)], ?_, by decide⟩
    intro err count base member
    cases List.mem_singleton.mp member
    decide
  short := by decide
  pos := by decide

/-- The first buffer is too small, the second has room for one record. -/
theorem getdents_enumerates_opened : ∃ seen reached,
    enumerate .linuxDirent (fun path => .ofNat 64 path.length) opened [(16, fun _ => 'x'), (40, fun _ => 'x')] = some (seen, reached) ∧
      seen.map Record.entry = (opened.entries.take reached.pos.toNat).drop 0 ∧
      ∀ count memory, Answered .linuxDirent (fun path => .ofNat 64 path.length) reached count memory := by
  obtain ⟨seen, reached, enumerated, _, _, entries, _, answers, _⟩ := getdents_enumerates (.first (.pair List.length)) .linuxDirent
    (fun path => .ofNat 64 path.length) open_opened [(16, fun _ => 'x'), (40, fun _ => 'x')]
  exact ⟨seen, reached, enumerated, entries, answers⟩

end GekkoFwd.Proofs.DirectoryCalls
