import GekkoFwd.Lib.Words
import GekkoFwd.DirRecords
import GekkoFwd.Proofs.DirectoryListing

/-! The records of a directory in the buffers of a caller: they are read back as they were
written, calls one after the other go through the entries once, and a position that a record
names is where the next call goes on. -/

namespace GekkoFwd.Proofs.DirectoryRecords
open DirRecords ClientOps CellMemory DirectoryListing

/-! The entries of an open directory. -/

/-- Entries as `forward_get_dirents` has them from some answers. Each host has an equal part of
the client's buffer. -/
def Received (entries : List (Str × Bool)) : Prop :=
  ∃ (ndebug : Bool) (replies : List (Option (Int × Nat × Str))),
    (∀ err count base, some (err, count, base) ∈ replies → base.length ≤ direntsBuffSize / replies.length) ∧
    (replies.mapM (recvReply ndebug (direntsBuffSize / replies.length))).map List.flatten = some entries

theorem cString_eq_some {ptr name : Str} (read : cString ptr = some name) :
    Dirents.nul ∉ name ∧ ∃ behind, ptr = name ++ Dirents.nul :: behind := by
  rw [cString] at read
  split at read
  next ended =>
    cases read
    refine ⟨fun inside => by simpa using List.mem_takeWhile_imp inside, ?_⟩
    induction ptr with
    | nil => cases ended
    | cons c ptr ih =>
      by_cases here : c = Dirents.nul
      · exact ⟨ptr, by simp [here]⟩
      · obtain ⟨behind, split⟩ := ih ((List.mem_cons.mp ended).resolve_left (Ne.symm here))
        refine ⟨behind, ?_⟩
        rw [List.takeWhile_cons_of_pos (by simpa using here), List.cons_append, ← split]
  next => cases read

theorem recvDirents_within {ndebug : Bool} {size : Nat} {base : Str} {remaining boolPtr namesPtr : Nat} {entries : List (Str × Bool)}
    (received : recvDirents ndebug size base remaining boolPtr namesPtr = some entries) (nonempty : entries ≠ []) :
    namesPtr + (entries.map fun entry => entry.1.length + 1).sum ≤ base.length := by
  induction remaining generalizing boolPtr namesPtr entries with
  | zero =>
    cases received
    exact absurd rfl nonempty
  | succ remaining ih =>
    simp only [recvDirents, Option.bind_eq_bind, Option.bind_eq_some_iff, Option.pure_def, Option.some.injEq] at received
    obtain ⟨_, _, _, _, name, named, rest, tail, rfl⟩ := received
    obtain ⟨_, behind, split⟩ := cString_eq_some named
    have length := congrArg List.length split
    rw [List.length_drop, List.length_append, List.length_cons] at length
    simp only [List.map_cons, List.sum_cons]
    by_cases last : rest = []
    · rw [last, List.map_nil, List.sum_nil]
      omega
    · have within := ih tail last
      omega

theorem recvDirents_plain {ndebug : Bool} {size : Nat} {base : Str} {remaining boolPtr namesPtr : Nat} {entries : List (Str × Bool)}
    (received : recvDirents ndebug size base remaining boolPtr namesPtr = some entries) : ∀ entry ∈ entries, Dirents.nul ∉ entry.1 := by
  induction remaining generalizing boolPtr namesPtr entries with
  | zero =>
    cases received
    exact fun entry member => nomatch member
  | succ remaining ih =>
    simp only [recvDirents, Option.bind_eq_bind, Option.bind_eq_some_iff, Option.pure_def, Option.some.injEq] at received
    obtain ⟨_, _, _, _, name, named, rest, tail, rfl⟩ := received
    exact List.forall_mem_cons.mpr ⟨(cString_eq_some named).1, ih tail⟩

/-- One host cannot make the client take more entries than its part of the buffer holds. -/
theorem outSize_recvReply {ndebug : Bool} {size count : Nat} {err : Int} {base : Str} {entries : List (Str × Bool)}
    (received : recvReply ndebug size (some (err, count, base)) = some entries) : Dirents.outSize entries ≤ base.length := by
  rw [recvReply] at received
  split at received
  next => cases received
  next =>
    by_cases empty : entries = []
    · rw [empty]
      exact Nat.zero_le _
    · have within := recvDirents_within received empty
      have counted := ClientSpec.length_recvDirents received
      have terminated : (entries.map fun entry => entry.1.length + 1).sum =
          (entries.map fun entry => entry.1.length).sum + entries.length := by
        simp [List.sum_map_add]
      rw [Dirents.outSize]
      omega

theorem outSize_flatten (parts : List (List (Str × Bool))) :
    Dirents.outSize parts.flatten = (parts.map Dirents.outSize).sum := by
  rw [outSize_eq_sum, List.map_flatten, List.sum_flatten, List.map_map]
  exact congrArg List.sum (List.map_congr_left fun part _ => (outSize_eq_sum part).symm)

namespace Received
variable {entries : List (Str × Bool)}

theorem outSize_le (received : Received entries) : Dirents.outSize entries ≤ direntsBuffSize := by
  obtain ⟨ndebug, replies, room, gathered⟩ := received
  obtain ⟨parts, each, rfl⟩ := Option.map_eq_some_iff.mp gathered
  have bound : ∀ part ∈ parts, Dirents.outSize part ≤ direntsBuffSize / replies.length := by
    intro part member
    obtain ⟨reply, among, read⟩ := MapM.exists_of_mapM_eq_some each member
    match reply with
    | none => cases read
    | some (err, count, base) => exact (outSize_recvReply read).trans (room err count base among)
  calc
    _ = (parts.map Dirents.outSize).sum := outSize_flatten parts
    _ ≤ parts.length * (direntsBuffSize / replies.length) := by
      have summed := List.sum_le_card_nsmul (parts.map Dirents.outSize) _ (by simpa using bound)
      simpa using summed
    _ = replies.length * (direntsBuffSize / replies.length) := by rw [MapM.length_of_mapM_eq_some each]
    _ ≤ _ := Nat.mul_div_le _ _

theorem plain (received : Received entries) : ∀ entry ∈ entries, Dirents.nul ∉ entry.1 := by
  obtain ⟨ndebug, replies, _, gathered⟩ := received
  obtain ⟨parts, each, rfl⟩ := Option.map_eq_some_iff.mp gathered
  intro entry listed
  obtain ⟨part, among, inside⟩ := List.mem_flatten.mp listed
  obtain ⟨reply, _, read⟩ := MapM.exists_of_mapM_eq_some each among
  match reply with
  | none => cases read
  | some (err, count, base) =>
    rw [recvReply] at read
    split at read
    next => cases read
    next => exact recvDirents_plain read entry inside

end Received

theorem length_rpcSrvGetDirents {ndebug : Bool} {path : Str} {bulkSize count : Nat} {db : MetadataDb} {err : Int} {base : Str}
    (answered : Daemon.rpcSrvGetDirents ndebug path bulkSize db = some (err, count, base)) : base.length ≤ bulkSize := by
  rw [Daemon.rpcSrvGetDirents] at answered
  split at answered
  next => cases answered
  next entries _ =>
    split at answered
    next =>
      cases answered
      exact Nat.zero_le _
    next =>
      split at answered
      next =>
        cases answered
        exact Nat.zero_le _
      next fits =>
        cases answered
        rw [Dirents.outBuff, List.length_append, List.length_map, length_strcpys]
        exact Nat.le_of_not_lt fits

/-- Whatever the hosts have, the entries of an open directory were received. -/
theorem received_gkfsOpendir {deployment : Deployment} {pools : Nat → IoPool} {client : Client deployment} {path : Str}
    {cluster after : Cluster} {entries : List (Str × Bool)}
    (ran : (Cluster.server deployment pools).exec (gkfsOpendir client path) cluster = (some (.ok entries), after)) : Received entries := by
  obtain ⟨answer, between, _, rest⟩ := RpcProgram.Server.exec_bind_eq_some _ ran
  cases answer with
  | error => cases rest
  | ok md =>
    dsimp only at rest
    split at rest
    next => cases rest
    next =>
      obtain ⟨listed, final, listing, last⟩ := RpcProgram.Server.exec_bind_eq_some _ rest
      cases last
      simp only [forwardGetDirents, client.locateDirectoryMetadata_eq, List.length_range, RpcProgram.Server.exec_post] at listing
      refine ⟨deployment.ndebug, ((Cluster.server deployment pools).handleAll ((List.range deployment.hosts).map fun host =>
        (host, Request.getDirents path (direntsBuffSize / deployment.hosts))) between).1, ?_, ?_⟩
      · intro err count base member
        obtain ⟨posted, among, before, answered⟩ := RpcProgram.Server.exists_of_mem_handleAll _ member
        obtain ⟨host, _, rfl⟩ := List.mem_map.mp among
        rw [RpcProgram.Server.length_handleAll, List.length_map, List.length_range]
        exact length_rpcSrvGetDirents (Cluster.serve_of_handle answered.symm)
      · rw [RpcProgram.Server.length_handleAll, List.length_map, List.length_range]
        cases gathered : List.mapM (recvReply deployment.ndebug (direntsBuffSize / deployment.hosts)) _ with
        | none =>
          rw [gathered] at listing
          cases listing
        | some received =>
          rw [gathered] at listing
          cases listing
          rfl

/-! One record. -/

/-- What a caller reads in a record. -/
structure Record where
  ino : Nat
  off : Nat
  reclen : Nat
  type : Nat
  name : Str
  deriving DecidableEq

/-- The name with its end and the type have places of their own, behind the header and before
the end of the record. -/
structure Shaped (layout : Layout) (nameLength reclen : Nat) : Prop where
  aligned : 8 ∣ reclen
  nameBehind : 18 ≤ layout.nameOffset
  nameWithin : layout.nameOffset + nameLength + 1 ≤ reclen
  typeBehind : 18 ≤ layout.typeOffset reclen
  typeWithin : layout.typeOffset reclen < reclen
  apart : layout.typeOffset reclen < layout.nameOffset ∨ layout.nameOffset + nameLength < layout.typeOffset reclen

theorem shaped_totalSize (layout : Layout) (name : Str) : Shaped layout name.length (layout.totalSize name) := by
  cases layout with
  | linuxDirent =>
    constructor <;> simp only [Layout.totalSize, Layout.nameOffset, Layout.typeOffset, FileOps.align] <;> omega
  | linuxDirent64 =>
    constructor <;> simp only [Layout.totalSize, Layout.nameOffset, Layout.typeOffset, FileOps.align] <;> omega

/-- The numbers fit their fields, and the name is a C string. -/
structure Record.Fits (record : Record) : Prop where
  ino : record.ino < 256 ^ 8
  off : record.off < 256 ^ 8
  reclen : record.reclen < 256 ^ 2
  type : record.type < 256
  name : Dirents.nul ∉ record.name

/-- The record of an entry, with the position behind the entry. -/
def recordOf (layout : Layout) (hash : Str → Word) (openDir : OpenFile) (index : Nat) (entry : Str × Bool) : Record where
  ino := (hash (inodePath openDir entry.1)).toNat
  off := index + 1
  reclen := layout.totalSize entry.1
  type := if entry.2 then dtDir else dtReg
  name := entry.1

/-- A record is at most fourteen times as long as what the entry took in the buffer of its host. -/
theorem totalSize_le (layout : Layout) (name : Str) : layout.totalSize name ≤ 14 * (name.length + 2) := by
  cases layout with
  | linuxDirent =>
    simp only [Layout.totalSize, Layout.nameOffset, FileOps.align]
    omega
  | linuxDirent64 =>
    simp only [Layout.totalSize, Layout.nameOffset, FileOps.align]
    omega

/-- The number in some bytes of the memory. -/
def value (bytes : Str) : Nat := Nat.ofDigits 256 (bytes.map Char.toNat)

theorem length_number (width n : Nat) : (number width n).length = width := by
  rw [number, List.length_map, length_digits]

theorem toNat_ofNat_byte {digit : Nat} (byte : digit < 256) : (Char.ofNat digit).toNat = digit := by
  have valid : digit.isValidChar := .inl (by omega)
  rw [Char.ofNat, dif_pos valid]
  rfl

theorem value_number {width n : Nat} (fits : n < 256 ^ width) : value (number width n) = n := by
  have same : (number width n).map Char.toNat = digits width n := by
    rw [number, List.map_map]
    refine (List.map_congr_left fun digit member => ?_).trans (List.map_id _)
    exact toNat_ofNat_byte (lt_of_mem_digits member)
  rw [value, same, ofDigits_digits, Nat.mod_eq_of_lt fits]

/-- The record at an address, if its name ends inside it. -/
def readRecord (layout : Layout) (memory : Nat → Char) (address : Nat) : Option Record := do
  let reclen := value (window memory (address + 16) 2)
  let name ← cString (window memory (address + layout.nameOffset) (reclen - layout.nameOffset))
  return ⟨value (window memory address 8), value (window memory (address + 8) 8), reclen,
    (memory (address + layout.typeOffset reclen)).toNat, name⟩

/-- The memory has the fields of the record. -/
structure Stands (layout : Layout) (memory : Nat → Char) (address : Nat) (record : Record) : Prop where
  ino : window memory address 8 = number 8 record.ino
  off : window memory (address + 8) 8 = number 8 record.off
  reclen : window memory (address + 16) 2 = number 2 record.reclen
  type : memory (address + layout.typeOffset record.reclen) = Char.ofNat record.type
  name : window memory (address + layout.nameOffset) (record.name.length + 1) = record.name ++ [Dirents.nul]

section record
variable {layout : Layout} {memory : Nat → Char} {address : Nat} {record : Record}

theorem Stands.readRecord_eq (stands : Stands layout memory address record) (shaped : Shaped layout record.name.length record.reclen)
    (fits : record.Fits) : readRecord layout memory address = some record := by
  have length : value (window memory (address + 16) 2) = record.reclen := by
    rw [stands.reclen, value_number fits.reclen]
  have room := shaped.nameWithin
  have behind := window_add memory (address + layout.nameOffset) (record.name.length + 1)
    (record.reclen - layout.nameOffset - (record.name.length + 1))
  rw [Nat.add_sub_of_le (by omega), stands.name, List.append_assoc] at behind
  have read : cString (window memory (address + layout.nameOffset) (record.reclen - layout.nameOffset)) = some record.name := by
    rw [behind]
    exact cString_append fits.name
  simp only [readRecord, length, read, stands.ino, stands.off, stands.type, value_number fits.ino, value_number fits.off,
    toNat_ofNat_byte fits.type, Option.bind_eq_bind, Option.bind_some, Option.pure_def]

theorem Stands.congr {other : Nat → Char} (stands : Stands layout memory address record)
    (shaped : Shaped layout record.name.length record.reclen)
    (same : ∀ cell, address ≤ cell → cell < address + record.reclen → other cell = memory cell) :
    Stands layout other address record := by
  have within := shaped.nameWithin
  have behind := shaped.nameBehind
  have kept : ∀ {start count : Nat}, start + count ≤ record.reclen →
      window other (address + start) count = window memory (address + start) count := by
    intro start count inside
    exact window_congr fun index below => same _ (by omega) (by omega)
  refine ⟨?_, ?_, ?_, ?_, ?_⟩
  · exact (@kept 0 8 (by omega)).trans stands.ino
  · exact (kept (by omega)).trans stands.off
  · exact (kept (by omega)).trans stands.reclen
  · have inside := shaped.typeWithin
    exact (same _ (by omega) (by omega)).trans stands.type
  · exact (kept (by omega)).trans stands.name

end record

section put
variable (layout : Layout) (hash : Str → Word) (openDir : OpenFile)

theorem stands_putRecord {entry : Str × Bool} (plain : Dirents.nul ∉ entry.1) {index : Nat} (small : index + 1 < 2 ^ 64)
    (address : Nat) (memory : Nat → Char) :
    Stands layout (putRecord layout (hash (inodePath openDir entry.1)) entry (.ofNat 64 (index + 1)) address memory) address
      (recordOf layout hash openDir index entry) := by
  obtain ⟨_, nameBehind, nameWithin, typeBehind, typeWithin, apart⟩ := shaped_totalSize layout entry.1
  have ended : (entry.1 ++ [Dirents.nul]).length = entry.1.length + 1 := by rw [List.length_append, List.length_singleton]
  have next : (BitVec.ofNat 64 (index + 1)).toNat = index + 1 := Words.toNat_ofNat small
  refine ⟨?_, ?_, ?_, ?_, ?_⟩ <;> dsimp only [putRecord, recordOf] <;> rw [takeWhile_plain plain, next]
  · rw [window_store_apart (.inl (by omega)), window_store_apart (.inl (by omega)), window_store_apart (.inl (by omega)),
      window_store_apart (.inl (by omega)), window_store _ _ (length_number _ _)]
  · exact window_store _ _ (length_number _ _)
  · rw [window_store_apart (.inr (by rw [length_number])), window_store_apart (.inl (by omega)),
      window_store_apart (.inl (by omega)), window_store _ _ (length_number _ _)]
  · rw [store_behind (by rw [length_number]; omega)]
    rcases apart with before | behind
    · rw [store_before (by omega)]
      exact @store_inside _ _ _ [_] 0 (by simp)
    · rw [store_behind (by rw [ended]; omega)]
      exact @store_inside _ _ _ [_] 0 (by simp)
  · rw [window_store_apart (.inr (by rw [length_number]; omega)), window_store _ _ ended]

theorem putRecord_outside {entry : Str × Bool} (plain : Dirents.nul ∉ entry.1) (inode next : Word) (address : Nat) (memory : Nat → Char)
    {cell : Nat} (outside : cell < address ∨ address + layout.totalSize entry.1 ≤ cell) :
    putRecord layout inode entry next address memory cell = memory cell := by
  obtain ⟨_, nameBehind, nameWithin, typeBehind, typeWithin, _⟩ := shaped_totalSize layout entry.1
  have ended : (entry.1 ++ [Dirents.nul]).length = entry.1.length + 1 := by rw [List.length_append, List.length_singleton]
  dsimp only [putRecord]
  rw [takeWhile_plain plain]
  rcases outside with before | behind
  · rw [store_before (by omega), store_before (by omega), store_before (by omega), store_before (by omega), store_before before]
  · rw [store_behind (by rw [length_number]; omega), store_behind (by omega), store_behind (by rw [List.length_singleton]; omega),
      store_behind (by rw [length_number]; omega), store_behind (by rw [length_number]; omega)]

/-- The records that one call writes, from an address on. -/
def putRecords : List (Str × Bool) → (index address : Nat) → (memory : Nat → Char) → Nat → Char
  | [], _, _, memory => memory
  | entry :: entries, index, address, memory =>
    putRecords entries (index + 1) (address + layout.totalSize entry.1)
      (putRecord layout (hash (inodePath openDir entry.1)) entry (.ofNat 64 (index + 1)) address memory)

/-- The length of the records of some entries. -/
def sizes (entries : List (Str × Bool)) : Nat := (entries.map fun entry => layout.totalSize entry.1).sum

theorem putRecords_outside {entries : List (Str × Bool)} (plain : ∀ entry ∈ entries, Dirents.nul ∉ entry.1) (index address : Nat)
    (memory : Nat → Char) {cell : Nat} (outside : cell < address ∨ address + sizes layout entries ≤ cell) :
    putRecords layout hash openDir entries index address memory cell = memory cell := by
  induction entries generalizing index address memory with
  | nil => rfl
  | cons entry entries ih =>
    obtain ⟨here, others⟩ := List.forall_mem_cons.mp plain
    simp only [sizes, List.map_cons, List.sum_cons] at outside ih
    rw [putRecords, ih others _ _ _ (by omega), putRecord_outside layout here _ _ _ _ (by omega)]

/-- The caller's loop over a buffer: every record ends inside it. -/
def readRecords (memory : Nat → Char) (size : Nat) : (fuel address : Nat) → Option (List Record)
  | 0, address => if address = size then some [] else none
  | fuel + 1, address =>
    if address = size then some []
    else do
      let record ← readRecord layout memory address
      guard (address + record.reclen ≤ size)
      let rest ← readRecords memory size fuel (address + record.reclen)
      return record :: rest

theorem fits_recordOf {entry : Str × Bool} (plain : Dirents.nul ∉ entry.1) (short : entry.1.length ≤ Path.maxLength) {index : Nat}
    (small : index + 1 < 2 ^ 64) : (recordOf layout hash openDir index entry).Fits where
  ino := (hash (inodePath openDir entry.1)).isLt
  off := small
  reclen := by
    have bound := totalSize_le layout entry.1
    rw [Path.maxLength] at short
    simp only [recordOf]
    omega
  type := by
    simp only [recordOf]
    split <;> decide
  name := plain

theorem readRecords_putRecords {entries : List (Str × Bool)} (plain : ∀ entry ∈ entries, Dirents.nul ∉ entry.1)
    (short : ∀ entry ∈ entries, entry.1.length ≤ Path.maxLength) {index fuel : Nat} (small : index + entries.length < 2 ^ 64)
    (enough : entries.length ≤ fuel) (address : Nat) (memory : Nat → Char) :
    readRecords layout (putRecords layout hash openDir entries index address memory) (address + sizes layout entries) fuel address =
      some (entries.mapIdx fun offset => recordOf layout hash openDir (offset + index)) := by
  induction entries generalizing index fuel address memory with
  | nil => cases fuel <;> simp [readRecords, sizes]
  | cons entry entries ih =>
    obtain ⟨fuel, rfl⟩ := Nat.exists_eq_add_of_le' (Nat.le_trans (Nat.le_add_left 1 _) enough)
    obtain ⟨plainHere, plainOthers⟩ := List.forall_mem_cons.mp plain
    obtain ⟨shortHere, shortOthers⟩ := List.forall_mem_cons.mp short
    rw [List.length_cons] at small enough
    have shaped := shaped_totalSize layout entry.1
    have positive : 0 < layout.totalSize entry.1 := Nat.lt_of_lt_of_le (Nat.succ_pos _) shaped.nameWithin
    -- The records behind this one are written to other cells.
    have stands := (stands_putRecord layout hash openDir plainHere (by omega : index + 1 < 2 ^ 64) address memory).congr shaped
      fun cell _ inside => putRecords_outside layout hash openDir plainOthers (index + 1) (address + layout.totalSize entry.1) _
        (.inl inside)
    have read := stands.readRecord_eq shaped (fits_recordOf layout hash openDir plainHere shortHere (by omega))
    have rest := @ih plainOthers shortOthers (index + 1) fuel (by omega) (by omega) (address + layout.totalSize entry.1)
      (putRecord layout (hash (inodePath openDir entry.1)) entry (.ofNat 64 (index + 1)) address memory)
    have total : sizes layout (entry :: entries) = layout.totalSize entry.1 + sizes layout entries := by
      rw [sizes, List.map_cons, List.sum_cons, sizes]
    have moved : ∀ offset, offset + 1 + index = offset + (index + 1) := fun offset => by omega
    have length : (recordOf layout hash openDir index entry).reclen = layout.totalSize entry.1 := rfl
    rw [total, ← Nat.add_assoc, readRecords, if_neg (by omega), putRecords, read]
    simp only [Option.bind_eq_bind, Option.bind_some, length, Nat.le_add_right, guard_true, rest, List.mapIdx_cons, moved,
      Nat.zero_add, Option.pure_def]

end put

end GekkoFwd.Proofs.DirectoryRecords
