import GekkoFwd.ChunkStorage

/-! What the operations of the chunk store do to the chunks it holds. A store is seen
as a partial map from directory names and chunk numbers to contents; the tree
operations below it are not looked at again. -/

namespace GekkoFwd.Proofs.StorageSpec
open ChunkStorage LocalFs

/-- The directory name of a file: its path without the first slash, flattened. -/
def dirName (path : Str) : Str := path.tail.map fun c => if c = '/' then ':' else c

theorem slash_not_mem_dirName (path : Str) : '/' ∉ dirName path := by
  rw [dirName, List.mem_map]
  rintro ⟨c, _, flat⟩
  split at flat
  next => cases flat
  next plain => exact plain flat

/-- Canonical paths of files and directories other than the root. -/
structure IsFilePath (path : Str) : Prop where
  canonical : Path.Canonical path
  notRoot : path ≠ ['/']

theorem isFilePath_file : IsFilePath "/file".toList := ⟨⟨["file".toList], by decide, by decide⟩, by decide⟩

theorem dirName_ne_nil {path : Str} (rooted : Path.isAbsolute path = true) (notRoot : path ≠ ['/']) : dirName path ≠ [] := by
  intro empty
  cases path with
  | nil => simp [Path.isAbsolute] at rooted
  | cons c rest =>
    obtain rfl : rest = [] := List.map_eq_nil_iff.mp empty
    obtain rfl : c = '/' := by simpa [Path.isAbsolute] using rooted
    exact notRoot rfl

theorem IsFilePath.dirName_ne_nil {path : Str} (file : IsFilePath path) : dirName path ≠ [] :=
  StorageSpec.dirName_ne_nil file.canonical.isAbsolute file.notRoot

theorem getChunksDir_eq {path : Str} (absolute : Path.isAbsolute path = true) (ndebug : Bool) :
    getChunksDir ndebug path = .ok (dirName path) := by
  cases path with
  | nil => simp [Path.isAbsolute] at absolute
  | cons c rest => simp [getChunksDir, assertThat, absolute, dirName, pure, Except.pure, bind, Except.bind]

private theorem components_plain {name : Str} (plain : '/' ∉ name) (nonempty : name ≠ []) : components name = [name] := by
  rw [components, List.splitOn_eq_singleton plain]
  simp [nonempty]

private theorem slash_not_mem_toText (chunkId : Nat) : '/' ∉ DecText.toText chunkId := by
  intro member
  have digit := DecText.isDigit_of_mem_toText member
  revert digit
  decide

private theorem components_join {name : Str} (plain : '/' ∉ name) (chunkId : Nat) :
    components (name ++ '/' :: DecText.toText chunkId) =
      (if name = [] then [] else [name]) ++ [DecText.toText chunkId] := by
  rw [components, List.splitOn_append_cons_self_of_not_mem plain,
    List.splitOn_eq_singleton (slash_not_mem_toText chunkId)]
  by_cases empty : name = [] <;> simp [empty, DecText.toText_ne_nil]

private theorem isRelative_of_plain {name : Str} (plain : '/' ∉ name) (nonempty : name ≠ []) (rest : Str) :
    Path.isRelative (name ++ rest) = true := by
  cases name with
  | nil => exact absurd rfl nonempty
  | cons c name =>
    have other : c ≠ '/' := fun same => plain (by simp [same])
    simpa [Path.isRelative] using other

theorem chunkDir_absolute {path : Str} (rooted : Path.isAbsolute path = true) (notRoot : path ≠ ['/']) (ndebug : Bool) :
    chunkDir ndebug path = .ok [dirName path] := by
  have plain := slash_not_mem_dirName path
  have nonempty := dirName_ne_nil rooted notRoot
  have relative := isRelative_of_plain plain nonempty []
  rw [List.append_nil] at relative
  rw [chunkDir, getChunksDir_eq rooted]
  simp [absolute, assertThat, relative, components_plain plain nonempty, bind, Except.bind, pure, Except.pure]

theorem chunkDir_file {path : Str} (file : IsFilePath path) (ndebug : Bool) : chunkDir ndebug path = .ok [dirName path] :=
  chunkDir_absolute file.canonical.isAbsolute file.notRoot ndebug

theorem chunkFile_file {path : Str} (file : IsFilePath path) (ndebug : Bool) (chunkId : Nat) :
    chunkFile ndebug path chunkId = .ok [dirName path, DecText.toText chunkId] := by
  have plain := slash_not_mem_dirName path
  have relative := isRelative_of_plain plain file.dirName_ne_nil ('/' :: DecText.toText chunkId)
  rw [chunkFile, getChunkPath, getChunksDir_eq file.canonical.isAbsolute]
  simp [absolute, assertThat, relative, components_join plain, file.dirName_ne_nil, bind, Except.bind, pure, Except.pure]

/-- The root's flattened name is empty, so that its directory is the store itself. -/
theorem chunkDir_root (ndebug : Bool) :
    chunkDir ndebug ['/'] = if ndebug then .ok [] else .error .assertion := by
  cases ndebug <;> rfl

theorem chunkFile_root (ndebug : Bool) (chunkId : Nat) :
    chunkFile ndebug ['/'] chunkId = if ndebug then .ok [DecText.toText chunkId] else .error .assertion := by
  have none : dirName ['/'] = [] := rfl
  have split := @components_join [] (by simp) chunkId
  rw [chunkFile, getChunkPath, getChunksDir_eq Path.canonical_root.isAbsolute, none]
  cases ndebug <;> simp_all [absolute, assertThat, Path.isRelative, bind, Except.bind, pure, Except.pure]

/-- Paths whose flattened name the local file system takes for a directory. -/
structure Storable (path : Str) : Prop extends IsFilePath path where
  short : (dirName path).length ≤ nameMax

theorem storable_file : Storable "/file".toList := ⟨isFilePath_file, by decide⟩

theorem length_toText_le {chunkId : Nat} (small : chunkId < 2 ^ 32) : (DecText.toText chunkId).length ≤ nameMax := by
  have digits : (DecText.toText chunkId).length ≤ 10 :=
    (Nat.length_toDigits_le_iff (by decide) (by decide)).mpr (Nat.lt_trans small (by decide))
  exact Nat.le_trans digits (by decide)

/-- The contents of a chunk. -/
def stored (storage : Storage) (dir : Str) (chunkId : Nat) : Option (List Byte) :=
  match storage.get [dir, DecText.toText chunkId] with
  | some (.file content) => some content
  | _ => none

/-- The byte a store holds at an offset of a file. -/
def held (storage : Storage) (path : Str) (x : Nat) : Option Byte :=
  (stored storage (dirName path) (x / chunksize)).bind fun content => content[x % chunksize]?

/-- The shape that the store keeps: directories below the root, and in them nothing
but chunk files with 32-bit numbers and at most one chunk of data. -/
structure WellFormed (storage : Storage) : Prop where
  root : storage.get [] = some .dir
  dirs : ∀ dir node, storage.get [dir] = some node → node = .dir
  short : ∀ dir node, storage.get [dir] = some node → dir.length ≤ nameMax
  chunks : ∀ dir name node, storage.get [dir, name] = some node → storage.get [dir] = some .dir ∧
    ∃ chunkId < 2 ^ 32, name = DecText.toText chunkId ∧ ∃ content, node = .file content ∧ content.length ≤ chunksize

theorem wellFormed_root : WellFormed (AList.insert [] .dir ∅) := by
  have read : ∀ path, FileTree.get (AList.insert [] .dir ∅ : Storage) path = if path = [] then some .dir else none := by
    intro path
    rw [FileTree.get_insert]
    rfl
  refine ⟨by rw [read, if_pos rfl], ?_, ?_, ?_⟩
  · intro dir node found
    rw [read, if_neg (by simp)] at found
    cases found
  · intro dir node found
    rw [read, if_neg (by simp)] at found
    cases found
  · intro dir name node found
    rw [read, if_neg (by simp)] at found
    cases found

theorem stored_eq_some {storage : Storage} {dir : Str} {chunkId : Nat} {content : List Byte} :
    stored storage dir chunkId = some content ↔ storage.get [dir, DecText.toText chunkId] = some (.file content) := by
  unfold stored
  split
  next found read => rw [read]; simp
  next other =>
    constructor
    · intro impossible
      cases impossible
    · intro read
      exact absurd read (other content)

namespace WellFormed
variable {storage : Storage} (valid : WellFormed storage)
include valid

theorem stored_eq_none {dir : Str} {chunkId : Nat} :
    stored storage dir chunkId = none ↔ storage.get [dir, DecText.toText chunkId] = none := by
  cases read : storage.get [dir, DecText.toText chunkId] with
  | none => simp [stored, read]
  | some node =>
    obtain ⟨_, _, _, _, content, rfl, _⟩ := valid.chunks _ _ _ read
    simp [stored, read]

theorem length_le {dir : Str} {chunkId : Nat} {content : List Byte}
    (found : stored storage dir chunkId = some content) : content.length ≤ chunksize := by
  obtain ⟨_, _, _, _, other, same, short⟩ := valid.chunks _ _ _ (stored_eq_some.mp found)
  cases same
  exact short

theorem dir_of_stored {dir : Str} {chunkId : Nat} {content : List Byte}
    (found : stored storage dir chunkId = some content) : storage.get [dir] = some .dir :=
  (valid.chunks _ _ _ (stored_eq_some.mp found)).1

theorem chunkId_lt {dir : Str} {chunkId : Nat} {content : List Byte}
    (found : stored storage dir chunkId = some content) : chunkId < 2 ^ 32 := by
  obtain ⟨_, other, small, same, _⟩ := valid.chunks _ _ _ (stored_eq_some.mp found)
  exact DecText.toText_injective same ▸ small

theorem find_dir {dir : Str} (fits : dir.length ≤ nameMax) : storage.find [dir] = .ok (storage.get [dir]) := by
  refine FileTree.find_of_dirs (fun depth inside => ?_) (by simpa using fits)
  have top : depth = 0 := by simpa using inside
  simpa [top] using valid.root

theorem find_chunk {dir : Str} (present : storage.get [dir] = some .dir) {name : Str} (fits : name.length ≤ nameMax) :
    storage.find [dir, name] = .ok (storage.get [dir, name]) := by
  refine FileTree.find_of_dirs (fun depth inside => ?_) (by simpa using ⟨valid.short _ _ present, fits⟩)
  have level : depth = 0 ∨ depth = 1 := by
    simp only [List.length_cons, List.length_nil] at inside
    omega
  rcases level with rfl | rfl
  · exact valid.root
  · exact present

/-- A chunk that is not stored is not found, whether or not its directory is there. -/
theorem find_missing {dir : Str} (fits : dir.length ≤ nameMax) {chunkId : Nat} (small : chunkId < 2 ^ 32)
    (missing : stored storage dir chunkId = none) :
    storage.find [dir, DecText.toText chunkId] = .error .enoent ∨ storage.find [dir, DecText.toText chunkId] = .ok none := by
  cases read : storage.get [dir] with
  | none =>
    left
    simp [FileTree.find, FileTree.walk, valid.root, read, fits]
  | some node =>
    right
    rw [valid.dirs _ _ read] at read
    rw [valid.find_chunk read (length_toText_le small), valid.stored_eq_none.mp missing]

theorem find_stored {dir : Str} {chunkId : Nat} {content : List Byte} (found : stored storage dir chunkId = some content) :
    storage.find [dir, DecText.toText chunkId] = .ok (some (.file content)) := by
  rw [valid.find_chunk (valid.dir_of_stored found) (length_toText_le (valid.chunkId_lt found)), stored_eq_some.mp found]

theorem add_dir {after : Storage} {dir : Str} (fits : dir.length ≤ nameMax)
    (updated : ∀ path, after.get path = if path = [dir] then some .dir else storage.get path) : WellFormed after := by
  refine ⟨?_, ?_, ?_, ?_⟩
  · rw [updated, if_neg (by simp)]
    exact valid.root
  · intro other node read
    rw [updated] at read
    split at read
    next => exact (Option.some.inj read).symm
    next => exact valid.dirs other node read
  · intro other node read
    rw [updated] at read
    split at read
    next same => exact (List.cons.inj same).1 ▸ fits
    next => exact valid.short other node read
  · intro other name node read
    rw [updated, if_neg (by simp)] at read
    obtain ⟨parent, chunk⟩ := valid.chunks other name node read
    refine ⟨?_, chunk⟩
    rw [updated]
    split
    next => rfl
    next => exact parent

theorem put_chunk {after : Storage} {dir : Str} {chunkId : Nat} {content : List Byte}
    (present : storage.get [dir] = some .dir) (small : chunkId < 2 ^ 32) (short : content.length ≤ chunksize)
    (updated : ∀ path, after.get path =
      if path = [dir, DecText.toText chunkId] then some (.file content) else storage.get path) : WellFormed after := by
  refine ⟨?_, ?_, ?_, ?_⟩
  · rw [updated, if_neg (by simp)]
    exact valid.root
  · intro other node read
    rw [updated, if_neg (by simp)] at read
    exact valid.dirs other node read
  · intro other node read
    rw [updated, if_neg (by simp)] at read
    exact valid.short other node read
  · intro other name node read
    rw [updated] at read
    rw [updated, if_neg (by simp)]
    split at read
    next same =>
      simp only [List.cons.injEq, and_true] at same
      rw [same.1]
      exact ⟨present, chunkId, small, same.2, content, (Option.some.inj read).symm, short⟩
    next => exact valid.chunks other name node read

/-- Removing nodes keeps the shape as long as no directory goes before its chunks. -/
theorem remove {after : Storage} {gone : List Str → Prop} [DecidablePred gone] (rootStays : ¬gone [])
    (closed : ∀ dir name, gone [dir] → gone [dir, name])
    (updated : ∀ path, after.get path = if gone path then none else storage.get path) : WellFormed after := by
  refine ⟨?_, ?_, ?_, ?_⟩
  · rw [updated, if_neg rootStays]
    exact valid.root
  · intro dir node read
    rw [updated] at read
    split at read
    next => cases read
    next => exact valid.dirs dir node read
  · intro dir node read
    rw [updated] at read
    split at read
    next => cases read
    next => exact valid.short dir node read
  · intro dir name node read
    rw [updated] at read
    split at read
    next => cases read
    next stays =>
      rw [updated, if_neg (mt (closed dir name) stays)]
      exact valid.chunks dir name node read

end WellFormed

section Views
variable {storage after : Storage}

theorem stored_congr {dir : Str} {chunkId : Nat}
    (same : after.get [dir, DecText.toText chunkId] = storage.get [dir, DecText.toText chunkId]) :
    stored after dir chunkId = stored storage dir chunkId := by
  rw [stored, stored, same]

theorem stored_put_chunk {dir : Str} {chunkId : Nat} {content : List Byte}
    (updated : ∀ path, after.get path =
      if path = [dir, DecText.toText chunkId] then some (.file content) else storage.get path)
    (other : Str) (target : Nat) : stored after other target =
      if other = dir ∧ target = chunkId then some content else stored storage other target := by
  by_cases same : other = dir ∧ target = chunkId
  · rw [if_pos same, stored_eq_some, updated, same.1, same.2, if_pos rfl]
  · rw [if_neg same]
    refine stored_congr ?_
    rw [updated, if_neg]
    simpa [DecText.toText_injective.eq_iff] using same

end Views

variable {storage : Storage} {path : Str}

/-- `init_chunk_space` leaves the directory in place, whether or not it was there. -/
theorem initChunkSpace_spec (valid : WellFormed storage) (file : Storable path) (ndebug : Bool) :
    ∃ after, initChunkSpace ndebug path storage = (.ok (), after) ∧ WellFormed after ∧
      after.get [dirName path] = some .dir ∧ (∀ dir chunkId, stored after dir chunkId = stored storage dir chunkId) := by
  cases read : storage.get [dirName path] with
  | none =>
    have updated : ∀ other, FileTree.get (storage.insert [dirName path] .dir) other =
        if other = [dirName path] then some .dir else storage.get other := fun other => FileTree.get_insert _ _ _ _
    refine ⟨storage.insert [dirName path] .dir, ?_, valid.add_dir file.short updated, by rw [updated, if_pos rfl], ?_⟩
    · simp only [initChunkSpace, chunkDir_file file.toIsFilePath, FileTree.mkdir, valid.find_dir file.short, read]
    · intro dir chunkId
      exact stored_congr (by rw [updated, if_neg (by simp)])
  | some node =>
    rw [valid.dirs _ _ read] at read
    refine ⟨storage, ?_, valid, read, fun _ _ => rfl⟩
    simp only [initChunkSpace, chunkDir_file file.toIsFilePath, FileTree.mkdir, valid.find_dir file.short, read]

/-- There is no directory for a file whose flattened name is too long. -/
theorem initChunkSpace_long (valid : WellFormed storage) (file : IsFilePath path) (long : nameMax < (dirName path).length) (ndebug : Bool) :
    initChunkSpace ndebug path storage = (.error (.systemError .enametoolong), storage) := by
  simp only [initChunkSpace, chunkDir_file file, FileTree.mkdir, FileTree.find_of_long valid.root long]

theorem writeChunk_long (valid : WellFormed storage) (file : IsFilePath path) (long : nameMax < (dirName path).length) (ndebug : Bool)
    (chunkId : Nat) {buff : List Byte} {offset : Nat} (inside : offset + buff.length ≤ chunksize) (outcome : PwriteOutcome) :
    writeChunk ndebug path chunkId buff offset outcome storage = (.error (.systemError .enametoolong), storage) := by
  rw [writeChunk, decide_eq_true inside, assertThat_true]
  simp only [initChunkSpace_long valid file long]

/-- A chunk after the first bytes of a buffer have been stored at an offset. -/
def written (old : Option (List Byte)) (data : List Byte) (offset : Nat) : List Byte :=
  ByteFile.pwrite (old.getD []) data offset

theorem length_written_le {old : Option (List Byte)} {data : List Byte} {offset : Nat}
    (short : ∀ content, old = some content → content.length ≤ chunksize) (inside : offset + data.length ≤ chunksize) :
    (written old data offset).length ≤ chunksize := by
  have base : (old.getD []).length ≤ chunksize := by
    cases old with
    | none => exact Nat.zero_le _
    | some content => exact short content rfl
  by_cases none : data = []
  · simpa [written, ByteFile.pwrite, none] using base
  · rw [written, ByteFile.length_pwrite none]
    omega

/-- The bytes that one `pwrite` leaves in its file, and the value of its eventual. -/
def landed : PwriteOutcome → List Byte → List Byte
  | .stored count, buff => buff.take count
  | .failed _, _ => []

def returned : PwriteOutcome → List Byte → Except Exn Nat
  | .stored count, buff => .ok (min count buff.length)
  | .failed errno, _ => .error (.systemError errno)

theorem length_landed_le (outcome : PwriteOutcome) (buff : List Byte) : (landed outcome buff).length ≤ buff.length := by
  cases outcome with
  | stored count => exact List.length_take_le' _ _
  | failed errno => exact Nat.zero_le _

theorem getElem?_landed {outcome : PwriteOutcome} {buff : List Byte} {index : Nat} (inside : index < (landed outcome buff).length) :
    (landed outcome buff)[index]? = buff[index]? := by
  cases outcome with
  | stored count =>
    rw [landed, List.length_take] at inside
    rw [landed, List.getElem?_take_of_lt (by omega)]
  | failed errno => cases inside

/-- However the local write comes out, the chunk file is there afterwards. -/
theorem writeChunk_spec (valid : WellFormed storage) (file : Storable path) (ndebug : Bool) {chunkId offset : Nat}
    {buff : List Byte} (outcome : PwriteOutcome) (small : chunkId < 2 ^ 32) (inside : offset + buff.length ≤ chunksize) :
    ∃ after, writeChunk ndebug path chunkId buff offset outcome storage = (returned outcome buff, after) ∧ WellFormed after ∧
      ∀ dir target, stored after dir target = if dir = dirName path ∧ target = chunkId
        then some (written (stored storage dir target) (landed outcome buff) offset) else stored storage dir target := by
  obtain ⟨opened, made, kept, present, same⟩ := initChunkSpace_spec valid file ndebug
  have asserted : assertThat ndebug (decide (offset + buff.length ≤ chunksize)) = .ok () := by
    simp [assertThat, inside]
  have notDir : opened.get [dirName path, DecText.toText chunkId] ≠ some .dir := by
    intro isDir
    obtain ⟨_, _, _, _, content, impossible, _⟩ := kept.chunks _ _ _ isDir
    cases impossible
  obtain ⟨ready, content, openedOk, wasFile, wasNone, atFile⟩ :=
    FileTree.openCreate_spec (kept.find_chunk present (length_toText_le small)) rfl notDir
  have old : content = (stored opened (dirName path) chunkId).getD [] := by
    cases read : stored opened (dirName path) chunkId with
    | none => exact wasNone (kept.stored_eq_none.mp read)
    | some before => exact wasFile before (stored_eq_some.mp read)
  have short : (written (stored opened (dirName path) chunkId) (landed outcome buff) offset).length ≤ chunksize :=
    length_written_le (fun _ => kept.length_le) (Nat.le_trans (Nat.add_le_add_left (length_landed_le outcome buff) _) inside)
  obtain ⟨after, wrote, updated⟩ : ∃ after, writeChunk ndebug path chunkId buff offset outcome storage = (returned outcome buff, after) ∧
      ∀ other, after.get other = if other = [dirName path, DecText.toText chunkId]
        then some (.file (written (stored opened (dirName path) chunkId) (landed outcome buff) offset)) else opened.get other := by
    simp only [writeChunk, asserted, made, chunkFile_file file.toIsFilePath, openedOk]
    cases outcome with
    | failed errno => exact ⟨ready, rfl, by simpa [landed, written, ByteFile.pwrite, old] using atFile⟩
    | stored count =>
      refine ⟨_, rfl, fun other => ?_⟩
      rw [FileTree.get_pwrite (by rw [atFile, if_pos rfl]), old, atFile]
      split <;> rfl
  refine ⟨after, wrote, kept.put_chunk present small short updated, fun dir target => ?_⟩
  rw [stored_put_chunk updated]
  split
  next here => rw [here.1, here.2, same]
  next => exact same dir target

/-- However the reads are cut short, the loop collects what one read would return. -/
theorem readRest_spec {schedule : PreadSchedule} (answers : ∀ round, ∃ most, schedule round = .ok most)
    (content : List Byte) (size offset round : Nat) (bytes : List Byte) (room : bytes.length ≤ size) :
    readRest schedule content size offset round bytes =
      .ok (bytes ++ ByteFile.pread content (size - bytes.length) (offset + bytes.length)) := by
  fun_induction readRest schedule content size offset round bytes with
  | case1 round bytes errno failed =>
    obtain ⟨most, answered⟩ := answers round
    rw [answered] at failed
    cases failed
  | case2 round bytes most answered got atEnd =>
    have nothing : ByteFile.pread content (size - bytes.length) (offset + bytes.length) = [] := by
      have length := congrArg List.length atEnd
      rw [ByteFile.length_pread, List.length_nil] at length
      rw [← List.length_eq_zero_iff, ByteFile.length_pread]
      omega
    rw [nothing, List.append_nil]
  | case3 round bytes most answered got some_got complete =>
    have count : got.length = size - bytes.length := by
      rw [List.length_append] at complete
      omega
    rw [← count, ByteFile.pread_length_self]
  | case4 round bytes most answered got some_got incomplete ih =>
    have bound : got.length ≤ size - bytes.length := by
      rw [ByteFile.length_pread]
      omega
    have total : (bytes ++ got).length = bytes.length + got.length := List.length_append
    have joined := ByteFile.pread_append content got.length (size - bytes.length - got.length) (offset + bytes.length)
    rw [ByteFile.pread_length_self, Nat.add_sub_cancel' bound] at joined
    rw [ih (by omega), total, List.append_assoc, ← Nat.sub_sub, ← Nat.add_assoc, joined]

theorem readChunk_spec (valid : WellFormed storage) (file : Storable path) (ndebug : Bool) {chunkId size offset : Nat}
    (small : chunkId < 2 ^ 32) {schedule : PreadSchedule} (answers : ∀ round, ∃ most, schedule round = .ok most)
    (inside : offset + size ≤ chunksize) :
    readChunk ndebug path chunkId size offset schedule storage =
      match stored storage (dirName path) chunkId with
      | some content => .ok (ByteFile.pread content size offset)
      | none => .error (.systemError .enoent) := by
  have asserted : assertThat ndebug (decide (offset + size ≤ chunksize)) = .ok () := by
    simp [assertThat, inside]
  have opened : storage.openRead [dirName path, DecText.toText chunkId] =
      match stored storage (dirName path) chunkId with
      | some content => .ok content
      | none => .error .enoent := by
    cases found : stored storage (dirName path) chunkId with
    | some content => simp only [FileTree.openRead, valid.find_stored found]
    | none => rcases valid.find_missing file.short small found with lost | absent <;> simp only [FileTree.openRead, *]
  simp only [readChunk, asserted, chunkFile_file file.toIsFilePath, opened, bind, Except.bind]
  cases stored storage (dirName path) chunkId with
  | some content => simp [readRest_spec answers]
  | none => rfl

private theorem assert_cut (ndebug : Bool) {length : Nat} (positive : 0 < length) (inside : length ≤ chunksize) :
    assertThat ndebug (decide (0 < length ∧ length % 2 ^ 32 ≤ chunksize)) = .ok () := by
  have small : length % 2 ^ 32 ≤ chunksize := Nat.le_trans (Nat.mod_le _ _) inside
  rw [decide_eq_true ⟨positive, small⟩, assertThat_true]

/-- Cutting a chunk needs the chunk; a missing one is an error, as is a missing directory. -/
theorem truncateChunk_missing (valid : WellFormed storage) (file : IsFilePath path) (ndebug : Bool) {chunkId length : Nat}
    (small : chunkId < 2 ^ 32) (positive : 0 < length) (inside : length ≤ chunksize)
    (missing : stored storage (dirName path) chunkId = none) :
    ∃ errno, truncateChunk ndebug path chunkId length storage = (.error (.systemError errno), storage) := by
  have asserted := assert_cut ndebug positive inside
  obtain ⟨errno, failed⟩ : ∃ errno, storage.truncate [dirName path, DecText.toText chunkId] length = .error errno := by
    by_cases fits : (dirName path).length ≤ nameMax
    · refine ⟨.enoent, ?_⟩
      rcases valid.find_missing fits small missing with lost | absent <;> simp only [FileTree.truncate, *]
    · exact ⟨.enametoolong, by simp only [FileTree.truncate, FileTree.find_of_long valid.root (Nat.not_le.mp fits)]⟩
  exact ⟨errno, by simp only [truncateChunk, chunkFile_file file, asserted, failed]⟩

theorem length_truncate (content : List Byte) (length : Nat) : (ByteFile.truncate content length).length = length := by
  simp only [ByteFile.truncate, List.length_take, List.length_append, List.length_replicate]
  omega

theorem truncateChunk_spec (valid : WellFormed storage) (file : IsFilePath path) (ndebug : Bool) {chunkId length : Nat}
    {content : List Byte} (positive : 0 < length) (inside : length ≤ chunksize)
    (found : stored storage (dirName path) chunkId = some content) :
    ∃ after, truncateChunk ndebug path chunkId length storage = (.ok (), after) ∧ WellFormed after ∧
      (∀ dir, after.get [dir] = storage.get [dir]) ∧
      ∀ dir target, stored after dir target = if dir = dirName path ∧ target = chunkId
        then some (ByteFile.truncate content length) else stored storage dir target := by
  have asserted := assert_cut ndebug positive inside
  have updated : ∀ other, FileTree.get (storage.insert [dirName path, DecText.toText chunkId]
      (.file (ByteFile.truncate content length))) other =
      if other = [dirName path, DecText.toText chunkId] then some (.file (ByteFile.truncate content length))
      else storage.get other := fun other => FileTree.get_insert _ _ _ _
  refine ⟨_, ?_, valid.put_chunk (valid.dir_of_stored found) (valid.chunkId_lt found) ?_ updated, ?_, stored_put_chunk updated⟩
  · simp only [truncateChunk, chunkFile_file file, asserted, FileTree.truncate, valid.find_stored found]
  · rw [length_truncate]
    exact inside
  · intro dir
    rw [updated, if_neg (by simp)]

open Classical in
/-- The loop of `trim_chunk_space` removes the listed chunks from `chunkStart` on. -/
theorem trimEntries_spec {dir : Str} {names : List Str} (valid : WellFormed storage) (present : storage.get [dir] = some .dir)
    (chunkStart : Nat) (distinct : names.Nodup) (listed : ∀ name ∈ names, (storage.get [dir, name]).isSome) :
    ∃ after, trimEntries [dir] chunkStart (2 ^ 32 - 1) names storage = (.ok (), after) ∧
      ∀ path, after.get path = if ∃ c, chunkStart ≤ c ∧ DecText.toText c ∈ names ∧ path = [dir, DecText.toText c]
        then none else storage.get path := by
  induction names generalizing storage with
  | nil => exact ⟨storage, rfl, by simp⟩
  | cons name names ih =>
    obtain ⟨node, read⟩ := Option.isSome_iff_exists.mp (listed name (by simp))
    obtain ⟨_, chunkId, small, rfl, content, rfl, _⟩ := valid.chunks _ _ _ read
    obtain ⟨absent, distinct⟩ := List.nodup_cons.mp distinct
    have number := @DecText.stoul_toText chunkId [] (by omega) (by simp)
    rw [List.append_nil] at number
    simp only [trimEntries, number, List.singleton_append]
    by_cases gone : chunkStart ≤ chunkId
    · have erased : ∀ other, FileTree.get (storage.erase [dir, DecText.toText chunkId]) other =
          if other = [dir, DecText.toText chunkId] then none else storage.get other := fun other => FileTree.get_erase _ _ _
      have unlinked : storage.unlink [dir, DecText.toText chunkId] = .ok (storage.erase [dir, DecText.toText chunkId]) := by
        simp only [FileTree.unlink, valid.find_chunk present (length_toText_le small), read]
      obtain ⟨after, ran, updated⟩ := ih (valid.remove (by simp) (by simp) erased)
        (by rw [erased, if_neg (by simp)]; exact present) distinct (fun other member => by
          rw [erased, if_neg (by simpa using fun same : other = DecText.toText chunkId => absent (same ▸ member))]
          exact listed other (List.mem_cons_of_mem _ member))
      refine ⟨after, ?_, fun other => ?_⟩
      · rw [if_pos (show chunkStart ≤ chunkId ∧ chunkId ≤ 2 ^ 32 - 1 by omega), unlinked]
        exact ran
      · rw [updated, erased]
        by_cases here : other = [dir, DecText.toText chunkId]
        · rw [if_pos here, ite_self, if_pos ⟨chunkId, gone, List.mem_cons_self, here⟩]
        · rw [if_neg here]
          congr 1
          simp only [List.mem_cons, eq_iff_iff]
          refine exists_congr fun c => and_congr_right fun _ => ⟨And.imp_left .inr, ?_⟩
          rintro ⟨first | later, same⟩
          · exact absurd (by rw [same, first]) here
          · exact ⟨later, same⟩
    · obtain ⟨after, ran, updated⟩ := ih valid present distinct fun other member => listed other (List.mem_cons_of_mem _ member)
      refine ⟨after, ?_, fun other => ?_⟩
      · rw [if_neg (show ¬ (chunkStart ≤ chunkId ∧ chunkId ≤ 2 ^ 32 - 1) by omega)]
        exact ran
      · rw [updated]
        congr 1
        simp only [List.mem_cons, eq_iff_iff]
        refine exists_congr fun c => and_congr_right fun start => ⟨And.imp_left .inr, ?_⟩
        rintro ⟨first | later, same⟩
        · exact absurd (DecText.toText_injective first ▸ start) gone
        · exact ⟨later, same⟩

theorem trimChunkSpace_missing (valid : WellFormed storage) (file : IsFilePath path) (ndebug : Bool) (chunkStart : Nat)
    (missing : storage.get [dirName path] = none) :
    ∃ errno, trimChunkSpace ndebug path chunkStart storage = (.error (.filesystemError errno), storage) := by
  by_cases fits : (dirName path).length ≤ nameMax
  · exact ⟨.enoent, by simp only [trimChunkSpace, chunkDir_file file, FileTree.readdir, valid.find_dir fits, missing]⟩
  · refine ⟨.enametoolong, ?_⟩
    simp only [trimChunkSpace, chunkDir_file file, FileTree.readdir, FileTree.find_of_long valid.root (Nat.not_le.mp fits)]

theorem trimChunkSpace_spec (valid : WellFormed storage) (file : IsFilePath path) (ndebug : Bool) (chunkStart : Nat)
    (present : storage.get [dirName path] = some .dir) :
    ∃ after, trimChunkSpace ndebug path chunkStart storage = (.ok (), after) ∧ WellFormed after ∧
      ∀ dir target, stored after dir target =
        if dir = dirName path ∧ chunkStart ≤ target then none else stored storage dir target := by
  classical
  obtain ⟨names, listed⟩ : ∃ names, storage.readdir [dirName path] = .ok names := by
    simp only [FileTree.readdir, valid.find_dir (valid.short _ _ present), present]
    exact ⟨_, rfl⟩
  have member : ∀ name, name ∈ names ↔ (storage.get [dirName path, name]).isSome := by
    intro name
    rw [FileTree.mem_readdir listed, FileTree.mem_iff_get, List.singleton_append]
  obtain ⟨after, ran, updated⟩ := trimEntries_spec valid present chunkStart (FileTree.readdir_nodup listed)
    fun name among => (member name).mp among
  refine ⟨after, ?_, valid.remove ?_ ?_ updated, fun dir target => ?_⟩
  · simp only [trimChunkSpace, chunkDir_file file, listed]
    exact ran
  · simp
  · simp
  · by_cases gone : dir = dirName path ∧ chunkStart ≤ target
    · rw [if_pos gone, stored, updated]
      split
      next content read =>
        split at read
        next => cases read
        next kept =>
          refine absurd ⟨target, gone.2, (member _).mpr ?_, by rw [gone.1]⟩ kept
          rw [← gone.1, read]
          rfl
      next => rfl
    · rw [if_neg gone]
      refine stored_congr ?_
      rw [updated, if_neg]
      rintro ⟨c, start, _, same⟩
      simp only [List.cons.injEq, and_true, DecText.toText_injective.eq_iff] at same
      exact gone ⟨same.1, same.2 ▸ start⟩

end GekkoFwd.Proofs.StorageSpec
