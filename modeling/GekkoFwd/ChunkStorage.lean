import GekkoFwd.Lib.DecText
import GekkoFwd.Path

/-! The chunk store of one daemon (`daemon/backend/data/chunk_storage.cpp`). Each
file has one directory below the root, each of its chunks one file in it. -/

namespace GekkoFwd

/-- The tree below a daemon's `root_path`. -/
abbrev Storage := LocalFs.FileTree Char Byte

namespace ChunkStorage

/-- The components the kernel finds in a path. -/
def components (path : Str) : List Str := (path.splitOn '/').filter (· ≠ [])

/-- `root_path + '/' + internal_path`, as a path below the root. -/
def absolute (ndebug : Bool) (internalPath : Str) : Except Exn (List Str) := do
  assertThat ndebug (Path.isRelative internalPath)
  return components internalPath

def getChunksDir (ndebug : Bool) (filePath : Str) : Except Exn Str := do
  assertThat ndebug (Path.isAbsolute filePath)
  match filePath with
  | [] => .error .outOfRange
  | _ :: chunkDir => return chunkDir.map fun c => if c = '/' then ':' else c

def getChunkPath (ndebug : Bool) (filePath : Str) (chunkId : Nat) : Except Exn Str := do
  return (← getChunksDir ndebug filePath) ++ '/' :: DecText.toText chunkId

/-- The two places a file's data lives in: its directory and one file for a chunk. -/
def chunkDir (ndebug : Bool) (filePath : Str) : Except Exn (List Str) := do
  absolute ndebug (← getChunksDir ndebug filePath)

def chunkFile (ndebug : Bool) (filePath : Str) (chunkId : Nat) : Except Exn (List Str) := do
  absolute ndebug (← getChunkPath ndebug filePath chunkId)

/-- An operation that may throw keeps what it did to the store before. -/
abbrev Result (α : Type) := Except Exn α × Storage

/-- Errors of `remove_all` are only logged. -/
def destroyChunkSpace (ndebug : Bool) (filePath : Str) (storage : Storage) : Result Unit :=
  match chunkDir ndebug filePath with
  | .error error => (.error error, storage)
  | .ok dir => (.ok (), storage.removeAll dir)

def initChunkSpace (ndebug : Bool) (filePath : Str) (storage : Storage) : Result Unit :=
  match chunkDir ndebug filePath with
  | .error error => (.error error, storage)
  | .ok dir =>
    match storage.mkdir dir with
    | .ok created => (.ok (), created)
    | .error .eexist => (.ok (), storage)
    | .error errno => (.error (.systemError errno), storage)

/-- The loop of `trim_chunk_space` over the entries of the directory. -/
def trimEntries (dir : List Str) (chunkStart chunkEnd : Nat) : List Str → Storage → Result Unit
  | [], storage => (.ok (), storage)
  | name :: names, storage =>
    match DecText.stoul name with
    | .error .invalidArgument => (.error .invalidArgument, storage)
    | .error .outOfRange => (.error .outOfRange, storage)
    | .ok (chunkId, _) =>
      if chunkStart ≤ chunkId ∧ chunkId ≤ chunkEnd then
        match storage.unlink (dir ++ [name]) with
        | .error errno => (.error (.systemError errno), storage)
        | .ok rest => trimEntries dir chunkStart chunkEnd names rest
      else trimEntries dir chunkStart chunkEnd names storage

/-- The default of `chunk_end` is the largest `unsigned int`. -/
def trimChunkSpace (ndebug : Bool) (filePath : Str) (chunkStart : Nat) (storage : Storage) : Result Unit :=
  match chunkDir ndebug filePath with
  | .error error => (.error error, storage)
  | .ok dir =>
    match storage.readdir dir with
    | .error errno => (.error (.filesystemError errno), storage)
    | .ok names => trimEntries dir chunkStart (2 ^ 32 - 1) names storage

def truncateChunk (ndebug : Bool) (filePath : Str) (chunkId length : Nat) (storage : Storage) : Result Unit :=
  match chunkFile ndebug filePath chunkId with
  | .error error => (.error error, storage)
  | .ok file =>
    match assertThat ndebug (decide (0 < length ∧ length % 2 ^ 32 ≤ chunksize)) with
    | .error error => (.error error, storage)
    | .ok () =>
      match storage.truncate file length with
      | .error errno => (.error (.systemError errno), storage)
      | .ok cut => (.ok (), cut)

/-- How the local file system answers one `pwrite`. -/
inductive PwriteOutcome where
  | stored (count : Nat)
  | failed (errno : LocalFs.Errno)
  deriving DecidableEq

/-- The value put into the eventual is what `pwrite` returned; a short write is not
continued. -/
def writeChunk (ndebug : Bool) (filePath : Str) (chunkId : Nat) (buff : List Byte) (offset : Nat)
    (outcome : PwriteOutcome) (storage : Storage) : Result Nat :=
  match assertThat ndebug (decide (offset + buff.length ≤ chunksize)) with
  | .error error => (.error error, storage)
  | .ok () =>
    match initChunkSpace ndebug filePath storage with
    | (.error error, storage) => (.error error, storage)
    | (.ok (), storage) =>
      match chunkFile ndebug filePath chunkId with
      | .error error => (.error error, storage)
      | .ok file =>
        match storage.openCreate file with
        | .error errno => (.error (.systemError errno), storage)
        | .ok opened =>
          match outcome with
          | .failed errno => (.error (.systemError errno), opened)
          | .stored count => (.ok (min count buff.length), opened.pwrite file (buff.take count) offset)

/-- How much each `pread64` of one call returns at most, or the error it reports. -/
abbrev PreadSchedule := Nat → Except LocalFs.Errno Nat

/-- The loop of `read_chunk`. `bytes` is the part of the buffer filled so far; a round
gets at least one byte unless it is at the end of the file. -/
def readRest (schedule : PreadSchedule) (content : List Byte) (size offset round : Nat) (bytes : List Byte) :
    Except Exn (List Byte) :=
  match schedule round with
  | .error errno => .error (.systemError errno)
  | .ok most =>
    let got := ByteFile.pread content (min (size - bytes.length) (max most 1)) (offset + bytes.length)
    if got = [] then .ok bytes
    else if (bytes ++ got).length = size then .ok (bytes ++ got)
    else readRest schedule content size offset (round + 1) (bytes ++ got)
termination_by size - bytes.length
decreasing_by
  rename_i some_got _
  have positive := List.length_pos_iff.mpr some_got
  have bound : got.length ≤ size - bytes.length := by
    rw [ByteFile.length_pread]
    omega
  change size - (bytes ++ got).length < _
  rw [List.length_append]
  omega

def readChunk (ndebug : Bool) (filePath : Str) (chunkId size offset : Nat) (schedule : PreadSchedule)
    (storage : Storage) : Except Exn (List Byte) := do
  assertThat ndebug (decide (offset + size ≤ chunksize))
  let file ← chunkFile ndebug filePath chunkId
  match storage.openRead file with
  | .error errno => .error (.systemError errno)
  | .ok content => readRest schedule content size offset 0 []

end ChunkStorage
end GekkoFwd
