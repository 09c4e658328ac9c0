import GekkoFwd.Lib.DecText
import GekkoFwd.Basic

/-! Metadata of one path and its text form (`global/metadata.cpp`), with
`HAS_SYMLINKS` as in the default build. -/

namespace GekkoFwd

/-- `gkfs::config::metadata`: the optional fields of the text form. -/
structure MetadataConfig where
  useAtime : Bool
  useMtime : Bool
  useCtime : Bool
  useLinkCnt : Bool
  useBlocks : Bool
  deriving DecidableEq

/-- The values in `config.hpp`. -/
def MetadataConfig.default : MetadataConfig := ⟨false, false, false, false, false⟩

/-- `mode_t`. -/
abbrev Mode := BitVec 32

namespace Mode

def ifmt : Mode := 0o170000
def ifdir : Mode := 0o040000
def ifreg : Mode := 0o100000
def iflnk : Mode := 0o120000
def ifchr : Mode := 0o020000
def ifblk : Mode := 0o060000
def ififo : Mode := 0o010000
def ifsock : Mode := 0o140000

def isDir (mode : Mode) : Bool := mode &&& ifmt == ifdir
def isReg (mode : Mode) : Bool := mode &&& ifmt == ifreg
def isLnk (mode : Mode) : Bool := mode &&& ifmt == iflnk

end Mode

structure Metadata where
  atime : Word
  mtime : Word
  ctime : Word
  mode : Mode
  linkCount : Word
  size : Word
  blocks : Word
  targetPath : Str
  deriving DecidableEq

namespace Metadata

/-- `Metadata(mode)`. -/
def ofMode (mode : Mode) : Metadata := ⟨0, 0, 0, mode, 0, 0, 0, []⟩

/-- The metadata separator `MSP`. -/
def msp : Char := '|'

def serialize (config : MetadataConfig) (md : Metadata) : Str :=
  DecText.toText md.mode.toNat ++
    msp :: DecText.toText md.size.toNat ++
    (if config.useAtime then msp :: DecText.intText md.atime.toInt else []) ++
    (if config.useMtime then msp :: DecText.intText md.mtime.toInt else []) ++
    (if config.useCtime then msp :: DecText.intText md.ctime.toInt else []) ++
    (if config.useLinkCnt then msp :: DecText.toText md.linkCount.toNat else []) ++
    (if config.useBlocks then msp :: DecText.intText md.blocks.toInt else []) ++
    msp :: md.targetPath

/-- The exception with which a conversion of the standard library fails. -/
def ofFailure {α : Type} : Except DecText.Failure α → Except Exn α
  | .ok value => .ok value
  | .error .invalidArgument => .error .invalidArgument
  | .error .outOfRange => .error .outOfRange

/-- A separator and the number after it. -/
def field {α : Type} (ndebug : Bool) (convert : Str → Except DecText.Failure (α × Nat)) (text : Str) :
    Except Exn (α × Str) := do
  assertThat ndebug (text.head? == some msp)
  let (value, read) ← ofFailure (convert (text.drop 1))
  return (value, text.drop (1 + read))

/-- A field that is read only when it is enabled. -/
def optional {α : Type} (enabled ndebug : Bool) (convert : Str → Except DecText.Failure (α × Nat)) (absent : α)
    (text : Str) : Except Exn (α × Str) :=
  if enabled then field ndebug convert text else return (absent, text)

/-- `Metadata(binary_str)`. Fields that are not enabled stay unset. -/
def parse (config : MetadataConfig) (ndebug : Bool) (text : Str) : Except Exn Metadata := do
  let (mode, read) ← ofFailure (DecText.stoul text)
  let (size, text) ← field ndebug DecText.stol (text.drop read)
  let (atime, text) ← optional config.useAtime ndebug DecText.stol 0 text
  let (mtime, text) ← optional config.useMtime ndebug DecText.stol 0 text
  let (ctime, text) ← optional config.useCtime ndebug DecText.stol 0 text
  let (linkCount, text) ← optional config.useLinkCnt ndebug DecText.stoul 0 text
  let (blocks, text) ← optional config.useBlocks ndebug DecText.stoul 0 text
  assertThat ndebug (text.head? == some msp)
  let targetPath := text.drop 1
  -- target_path should be there only if this is a link
  assertThat ndebug (targetPath.isEmpty || Mode.isLnk (.ofNat 32 mode))
  return { atime := .ofInt 64 atime, mtime := .ofInt 64 mtime, ctime := .ofInt 64 ctime, mode := .ofNat 32 mode,
           linkCount := .ofNat 64 linkCount, size := .ofInt 64 size, blocks := .ofNat 64 blocks, targetPath }

/-! The same constructor by its pointer into `binary_str.data()`. -/

/-- The C string at a pointer: a NUL ends it, at the latest the one behind the text. -/
def cStr (data : Str) (ptr : Nat) : Str := (data.drop ptr).takeWhile fun c => c != '\x00'

def fieldAt {α : Type} (ndebug : Bool) (convert : Str → Except DecText.Failure (α × Nat)) (data : Str) (ptr : Nat) :
    Except Exn (α × Nat) := do
  assertThat ndebug (data[ptr]? == some msp)
  let (value, read) ← ofFailure (convert (cStr data (ptr + 1)))
  assertThat ndebug (decide (0 < read))
  return (value, ptr + 1 + read)

def optionalAt {α : Type} (enabled ndebug : Bool) (convert : Str → Except DecText.Failure (α × Nat)) (absent : α)
    (data : Str) (ptr : Nat) : Except Exn (α × Nat) :=
  if enabled then fieldAt ndebug convert data ptr else return (absent, ptr)

/-- The metadata, and how far the pointer has come. -/
def ofBinaryStr (config : MetadataConfig) (ndebug : Bool) (data : Str) : Except Exn (Metadata × Nat) := do
  let (mode, ptr) ← ofFailure (DecText.stoul (cStr data 0))
  -- we read something
  assertThat ndebug (decide (0 < ptr))
  let (size, ptr) ← fieldAt ndebug DecText.stol data ptr
  -- The order is important. don't change.
  let (atime, ptr) ← optionalAt config.useAtime ndebug DecText.stol 0 data ptr
  let (mtime, ptr) ← optionalAt config.useMtime ndebug DecText.stol 0 data ptr
  let (ctime, ptr) ← optionalAt config.useCtime ndebug DecText.stol 0 data ptr
  let (linkCount, ptr) ← optionalAt config.useLinkCnt ndebug DecText.stoul 0 data ptr
  let (blocks, ptr) ← optionalAt config.useBlocks ndebug DecText.stoul 0 data ptr
  assertThat ndebug (data[ptr]? == some msp)
  let targetPath := cStr data (ptr + 1)
  assertThat ndebug (targetPath.isEmpty || Mode.isLnk (.ofNat 32 mode))
  let ptr := ptr + 1 + targetPath.length
  -- we consumed all the binary string
  assertThat ndebug ((data ++ ['\x00'])[ptr]? == some '\x00')
  return ({ atime := .ofInt 64 atime, mtime := .ofInt 64 mtime, ctime := .ofInt 64 ctime, mode := .ofNat 32 mode,
            linkCount := .ofNat 64 linkCount, size := .ofInt 64 size, blocks := .ofNat 64 blocks, targetPath }, ptr)

end Metadata
end GekkoFwd
