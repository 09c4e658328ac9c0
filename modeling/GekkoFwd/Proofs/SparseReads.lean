import GekkoFwd.Proofs.ReadAfterWrite

/-! Reads of files with holes. The daemons count the bytes that the chunk files have,
and a hole that reaches to the end of its chunk is in none of them. -/

namespace GekkoFwd.Proofs.SparseReads
open ChunkPartition IoPartition StorageSpec DataPath ReadAfterWrite

variable {deployment : Deployment} {path : Str} {cluster : Cluster}

section Read
variable {range : IoRange}

theorem getElem?_foundAt {c k : Nat} (inside : k < range.split.size c) :
    (foundAt deployment cluster path range c)[k]? = readAt deployment cluster path (range.offset + (range.split.origin c + k)) := by
  obtain ⟨chunk, index⟩ := div_mod_of_piece inside
  rw [foundAt, found, ByteFile.getElem?_pread, if_pos inside, readAt_eq, chunk, index]
  cases stored (cluster.storage (deployment.chunkBackend path c)) (dirName path) (c % 2 ^ 32) <;> rfl

/-- The buffer of a read: the bytes that are found, between them what it had before. -/
def filled (deployment : Deployment) (cluster : Cluster) (path : Str) (offset : Nat) (buf : List Byte) : List Byte :=
  (List.range buf.length).map fun i => ((readAt deployment cluster path (offset + i)).or buf[i]?).getD 0

theorem getElem?_filled (deployment : Deployment) (cluster : Cluster) (path : Str) (offset : Nat) {buf : List Byte} {i : Nat}
    (inside : i < buf.length) :
    (filled deployment cluster path offset buf)[i]? = (readAt deployment cluster path (offset + i)).or buf[i]? := by
  rw [filled, List.getElem?_map, List.getElem?_range inside, Option.map_some, List.getElem?_eq_getElem inside]
  cases readAt deployment cluster path (offset + i) <;> rfl

/-- A read counts the offsets for which it finds a byte. -/
theorem exec_gkfsPread_filled (client : Client deployment) (file : Storable path) {pools : Nat → IoPool}
    (answers : ∀ host, Answers (pools host)) (healthy : Healthy cluster) {buf : List Byte} (room : buf.length = range.size) :
    (Cluster.server deployment pools).exec (ClientOps.gkfsPread client path buf (.ofNat 64 range.offset)) cluster =
      (some (.ok (.ofNat 64 ((List.range buf.length).countP fun i => (readAt deployment cluster path (range.offset + i)).isSome)),
        filled deployment cluster path range.offset buf), cluster) := by
  have counted : (List.range buf.length).countP (fun i => (readAt deployment cluster path (range.offset + i)).isSome) =
      (range.split.blocks.map fun c => (foundAt deployment cluster path range c).length).sum := by
    rw [room, ← range.split_length]
    refine range.split.countP_pieces fun c _ => ⟨length_found_le _ _ _ _, fun k small => ?_⟩
    rw [← getElem?_foundAt small, Bool.eq_iff_iff]
    simp
  rw [counted]
  refine exec_gkfsPread_found client file answers healthy room (by simp [filled, room]) fun c member k small => ?_
  have inside := range.split.mem_blocks.mp member
  have fits := range.split.origin_add_size_le inside.1 inside.2
  rw [range.split_length] at fits
  rw [getElem?_filled _ _ _ _ (by omega), getElem?_foundAt small]

end Read

section History
variable {calls : List (WriteCall deployment)}

/-- The largest end of a write. -/
def fileSize (calls : List (WriteCall deployment)) : Nat :=
  calls.foldr (fun call size => max (call.offset + call.data.length) size) 0

/-- Some write goes beyond the offset from before the end of its chunk. -/
def reaches (calls : List (WriteCall deployment)) (x : Nat) : Bool :=
  calls.any fun call => decide (x < call.offset + call.data.length) && decide (call.offset < (x / chunksize + 1) * chunksize)

theorem isSome_byteAt (cluster : Cluster) (x : Nat) : (byteAt deployment cluster path x).isSome ↔ x % chunksize <
    ((stored (cluster.storage (deployment.chunkBackend path (x / chunksize))) (dirName path) (x / chunksize)).getD []).length := by
  rw [byteAt, held]
  cases stored (cluster.storage (deployment.chunkBackend path (x / chunksize))) (dirName path) (x / chunksize) with
  | none => simp
  | some content => simp

/-- A write fills its chunks up to the end of its range. -/
theorem isSome_byteAt_overwritten {range : IoRange} {data : List Byte} {before after : Cluster} (whole : data.length = range.size)
    (wrote : Overwritten deployment path range data before after) (x : Nat) :
    (byteAt deployment after path x).isSome ↔ (byteAt deployment before path x).isSome ∨
      (x < range.offset + range.size ∧ range.offset < (x / chunksize + 1) * chunksize) := by
  have decomposed := Nat.div_add_mod' x chunksize
  have small : x % chunksize < chunksize := Nat.mod_lt _ (by decide)
  have touched := range.split.inside_iff (x / chunksize)
  rw [isSome_byteAt, isSome_byteAt, wrote]
  -- a chunk that the range does not touch keeps its file
  by_cases inside : range.split.first ≤ x / chunksize ∧ x / chunksize ≤ range.split.last
  · have ends := range.split.lt_pos_add_size inside small
    rw [if_pos ⟨rfl, inside, rfl⟩, Option.getD_some, written, ByteFile.length_pwrite (slice_ne_nil whole inside),
      length_slice whole inside, lt_max_iff]
    simp only [range.split_start, range.split_block, range.split_length] at touched ends
    rw [ends, decomposed]
    simp [(touched.mp inside).1]
  · rw [if_neg fun holds => inside holds.2.1]
    simp only [range.split_start, range.split_block, range.split_length] at touched
    omega

theorem reaches_concat (calls : List (WriteCall deployment)) (call : WriteCall deployment) (x : Nat) :
    reaches (calls ++ [call]) x = true ↔ reaches calls x = true ∨
      (x < call.offset + call.data.length ∧ call.offset < (x / chunksize + 1) * chunksize) := by
  simp [reaches]

/-- A history starts from a file without data. -/
def Empty (cluster : Cluster) (path : Str) : Prop := ∀ backend c, stored (cluster.storage backend) (dirName path) c = none

theorem isSome_byteAt_history (file : Storable path) (healthy : Healthy cluster) (empty : Empty cluster path)
    (calls : List (WriteCall deployment)) (x : Nat) :
    (byteAt deployment (calls.foldl (WriteCall.exec path) cluster) path x).isSome ↔ reaches calls x = true := by
  induction calls using List.reverseRecOn with
  | nil => simp [byteAt, held, empty _ _, reaches]
  | append_singleton calls call ih =>
    obtain ⟨_, wrote⟩ := call.exec_spec file (writes_held file healthy calls).1
    rw [List.foldl_concat, isSome_byteAt_overwritten rfl wrote, ih, reaches_concat]
    rfl

theorem lt_fileSize_of_reaches {x : Nat} (reached : reaches calls x = true) : x < fileSize calls := by
  induction calls with
  | nil => cases reached
  | cons call calls ih =>
    rw [fileSize, List.foldr_cons, ← fileSize]
    simp only [reaches, List.any_cons, Bool.or_eq_true, Bool.and_eq_true, decide_eq_true_eq] at reached
    rcases reached with ⟨here, _⟩ | later
    · omega
    · have rest := ih later
      omega

/-- The offsets before the end of the file that lie behind the last byte of their chunk. -/
def missed (calls : List (WriteCall deployment)) (offset count : Nat) : Nat :=
  (List.range count).countP fun i => decide (offset + i < fileSize calls) && !reaches calls ((offset + i) % (2 ^ 32 * chunksize))

/-- The offsets behind the end whose chunk number, cut to 32 bits, names a chunk that goes so far. -/
def aliased (calls : List (WriteCall deployment)) (offset count : Nat) : Nat :=
  (List.range count).countP fun i => !decide (offset + i < fileSize calls) && reaches calls ((offset + i) % (2 ^ 32 * chunksize))

/-- A read up to the end of the file that has every written byte at its place. -/
def Delivers (calls : List (WriteCall deployment)) (offset : Nat) (buf : List Byte) (ran : Option (SysResult Word × List Byte)) : Prop :=
  ∃ count out, ran = some (.ok count, out) ∧ count.toNat = min buf.length (fileSize calls - offset) ∧
    ∀ i < count.toNat, ∀ b, latest calls (offset + i) = some b → out[i]? = some b

private theorem countP_swap {α : Type} (p q : α → Bool) (items : List α) :
    items.countP p + items.countP (fun item => q item && !p item) = items.countP q + items.countP fun item => !q item && p item := by
  induction items with
  | nil => rfl
  | cons item items ih =>
    simp only [List.countP_cons]
    cases p item <;> cases q item <;> simp <;> omega

theorem countP_lt (offset size count : Nat) :
    (List.range count).countP (fun i => decide (offset + i < size)) = min count (size - offset) := by
  induction count with
  | zero => simp
  | succ count ih =>
    rw [List.range_succ, List.countP_append, ih, List.countP_singleton]
    split
    next inside =>
      have := of_decide_eq_true inside
      omega
    next outside =>
      have := mt decide_eq_true outside
      omega

theorem count_add_missed (calls : List (WriteCall deployment)) (offset count : Nat) :
    (List.range count).countP (fun i => reaches calls ((offset + i) % (2 ^ 32 * chunksize))) + missed calls offset count =
      min count (fileSize calls - offset) + aliased calls offset count := by
  rw [← countP_lt]
  exact countP_swap _ _ _

theorem aliased_eq_zero {offset count : Nat} (narrow : offset + count ≤ 2 ^ 32 * chunksize) : aliased calls offset count = 0 := by
  refine List.countP_eq_zero.mpr fun i inside => ?_
  rw [List.mem_range] at inside
  rw [Nat.mod_eq_of_lt (by omega), Bool.and_eq_true, Bool.not_eq_true', decide_eq_false_iff_not]
  exact fun ⟨behind, reached⟩ => behind (lt_fileSize_of_reaches reached)

theorem exec_gkfsPread_history (file : Storable path) (healthy : Healthy cluster) (empty : Empty cluster path)
    (calls : List (WriteCall deployment)) (reader : Client deployment) {pools : Nat → IoPool} (answers : ∀ host, Answers (pools host))
    {offset : Nat} {buf : List Byte} (some_buf : buf ≠ []) (fits : offset + buf.length < 2 ^ 63) :
    (Cluster.server deployment pools).exec (ClientOps.gkfsPread reader path buf (.ofNat 64 offset))
        (calls.foldl (WriteCall.exec path) cluster) =
      (some (.ok (.ofNat 64 ((List.range buf.length).countP fun i => reaches calls ((offset + i) % (2 ^ 32 * chunksize)))),
        filled deployment (calls.foldl (WriteCall.exec path) cluster) path offset buf), calls.foldl (WriteCall.exec path) cluster) := by
  let range : IoRange := ⟨offset, buf.length, List.length_pos_iff.mpr some_buf, fits⟩
  have ran := @exec_gkfsPread_filled deployment path _ range reader file pools answers (writes_held file healthy calls).1 buf rfl
  refine ran.trans ?_
  have same : ∀ i, (readAt deployment (calls.foldl (WriteCall.exec path) cluster) path (range.offset + i)).isSome =
      reaches calls ((offset + i) % (2 ^ 32 * chunksize)) :=
    fun i => Bool.eq_iff_iff.mpr (isSome_byteAt_history file healthy empty calls _)
  simp only [same]
  rfl

/-- Written bytes are always delivered at their places. -/
theorem getElem?_filled_history (file : Storable path) (healthy : Healthy cluster) (calls : List (WriteCall deployment)) {offset i : Nat}
    {buf : List Byte} (inside : i < buf.length) {b : Byte} (written : latest calls (offset + i) = some b) :
    (filled deployment (calls.foldl (WriteCall.exec path) cluster) path offset buf)[i]? = some b := by
  have small := latest_bounded (Option.isSome_iff_exists.mpr ⟨b, written⟩)
  rw [getElem?_filled _ _ _ _ inside, readAt, Nat.mod_eq_of_lt small, (writes_held file healthy calls).2 _ b written, Option.some_or]

/-- A read of a file with holes has the right length exactly when as many offsets are
missed before the end as are found by aliasing behind it. Up to 2^32 chunks this means
that some write goes beyond each offset before the end from before the end of its chunk. -/
theorem sparse_read_iff (file : Storable path) (healthy : Healthy cluster) (empty : Empty cluster path)
    (calls : List (WriteCall deployment)) (reader : Client deployment) {pools : Nat → IoPool} (answers : ∀ host, Answers (pools host))
    {offset : Nat} {buf : List Byte} (some_buf : buf ≠ []) (fits : offset + buf.length < 2 ^ 63) :
    (Delivers calls offset buf ((Cluster.server deployment pools).exec (ClientOps.gkfsPread reader path buf (.ofNat 64 offset))
        (calls.foldl (WriteCall.exec path) cluster)).1 ↔ missed calls offset buf.length = aliased calls offset buf.length) ∧
    (offset + buf.length ≤ 2 ^ 32 * chunksize → (missed calls offset buf.length = aliased calls offset buf.length ↔
      ∀ i < buf.length, offset + i < fileSize calls → reaches calls (offset + i) = true)) := by
  have total := count_add_missed calls offset buf.length
  have most : (List.range buf.length).countP (fun i => reaches calls ((offset + i) % (2 ^ 32 * chunksize))) ≤ buf.length := by
    simpa using List.countP_le_length (l := List.range buf.length)
  constructor
  · rw [exec_gkfsPread_history file healthy empty calls reader answers some_buf fits, Delivers]
    constructor
    · rintro ⟨_, _, same, counted, _⟩
      cases same
      rw [Words.toNat_ofNat (by omega)] at counted
      omega
    · intro balanced
      refine ⟨_, _, rfl, ?_, ?_⟩
      · rw [Words.toNat_ofNat (by omega)]
        omega
      · rw [Words.toNat_ofNat (by omega)]
        exact fun i inside b written => getElem?_filled_history file healthy calls (by omega) written
  · intro narrow
    rw [aliased_eq_zero narrow, missed, List.countP_eq_zero]
    refine forall_congr' fun i => ?_
    rw [List.mem_range]
    refine imp_congr_right fun inside => ?_
    rw [Nat.mod_eq_of_lt (by omega)]
    simp

end History

theorem empty_fresh (path : Str) : Empty .fresh path := fun backend c => stored_fresh backend (dirName path) c

/-- Four bytes without a hole, over the end of a chunk. -/
theorem sparse_read_iff_overlapping :
    Delivers overlapping 524286 [0, 0, 0, 0] ((Cluster.server (.pair List.length) fun _ => frugalPool).exec
      (ClientOps.gkfsPread (.first (.pair List.length)) "/file".toList [0, 0, 0, 0] (.ofNat 64 524286))
      (overlapping.foldl (WriteCall.exec "/file".toList) .fresh)).1 := by
  obtain ⟨iff, narrow⟩ := sparse_read_iff storable_file healthy_fresh (empty_fresh _) overlapping (.first _)
    (fun _ => frugalPool_answers) (show ([0, 0, 0, 0] : List Byte) ≠ [] by decide) (show 524286 + 4 < 2 ^ 63 by decide)
  exact iff.mpr ((narrow (by decide)).mpr (by decide))

def afterHole : List (WriteCall (.pair List.length)) := [farByte]

/-- A read of the last two bytes of the file gets one, and the caller takes it for the
first of them. -/
theorem read_over_hole_is_short :
    fileSize afterHole - 524287 = 2 ∧
    (∃ out, (Cluster.server (.pair List.length) fun _ => frugalPool).exec
        (ClientOps.gkfsPread (.first (.pair List.length)) "/file".toList [0, 0] (.ofNat 64 524287))
        (afterHole.foldl (WriteCall.exec "/file".toList) .fresh) =
      (some (.ok 1, out), afterHole.foldl (WriteCall.exec "/file".toList) .fresh) ∧ out[1]? = some 7) ∧
    ¬Delivers afterHole 524287 [0, 0] ((Cluster.server (.pair List.length) fun _ => frugalPool).exec
      (ClientOps.gkfsPread (.first (.pair List.length)) "/file".toList [0, 0] (.ofNat 64 524287))
      (afterHole.foldl (WriteCall.exec "/file".toList) .fresh)).1 := by
  have ran := exec_gkfsPread_history storable_file healthy_fresh (empty_fresh _) afterHole (.first _)
    (fun _ => frugalPool_answers) (show ([0, 0] : List Byte) ≠ [] by decide) (show 524287 + 2 < 2 ^ 63 by decide)
  have count : (List.range [(0 : Byte), 0].length).countP (fun i => reaches afterHole ((524287 + i) % (2 ^ 32 * chunksize))) = 1 := by
    decide
  rw [count] at ran
  refine ⟨by decide, ⟨_, ran, getElem?_filled_history storable_file healthy_fresh afterHole (by decide) (by decide)⟩, ?_⟩
  rw [ran]
  rintro ⟨_, _, same, short, _⟩
  cases same
  revert short
  decide

end GekkoFwd.Proofs.SparseReads
