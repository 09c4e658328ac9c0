import Mathlib.Data.List.AList
import Mathlib.Data.Char
import GekkoFwd.Lib.PrefixScan
import GekkoFwd.Merge
import GekkoFwd.Path

/-! The metadata database of one daemon (`daemon/backend/metadata/db.cpp`) over a
RocksDB column: a key holds a value, if one was put, and the operands merged since.
RocksDB folds them with the merge operator when the key is read, and may fold a
leading part of them at any other time. -/

namespace GekkoFwd

/-- What RocksDB keeps for a key that has not been deleted since. -/
structure Cell where
  base : Option Str
  operands : List Str
  deriving DecidableEq

namespace Cell

/-- The value of the key: `FullMergeV2` runs when there is an operand. -/
def value (config : MetadataConfig) (ndebug : Bool) (cell : Cell) : Except Exn Str :=
  match cell.base, cell.operands with
  | none, [] => .error .notFound
  | some base, [] => .ok base
  | base, operands => MetadataMergeOperator.fullMergeV2 config ndebug base operands

def merge (cell : Cell) (operand : Str) : Cell := { cell with operands := cell.operands ++ [operand] }

/-- A full merge of the first `count` operands, made while RocksDB reorganises its
data. When the operator fails there the operands stay. -/
def collapse (config : MetadataConfig) (ndebug : Bool) (count : Nat) (cell : Cell) : Cell :=
  match cell.operands.take count with
  | [] => cell
  | first :: operands =>
    match MetadataMergeOperator.fullMergeV2 config ndebug cell.base (first :: operands) with
    | .ok value => ⟨some value, cell.operands.drop count⟩
    | .error _ => cell

end Cell

abbrev MetadataDb := AList fun _ : Str => Cell

namespace MetadataDb

def cell (db : MetadataDb) (key : Str) : Cell := (db.lookup key).getD ⟨none, []⟩

def get (config : MetadataConfig) (ndebug : Bool) (db : MetadataDb) (key : Str) : Except Exn Str :=
  (db.cell key).value config ndebug

/-- `db->Merge`. -/
def merge (db : MetadataDb) (key : Str) (operand : MergeOperand) : MetadataDb :=
  db.insert key ((db.cell key).merge operand.serialize)

def put (ndebug : Bool) (db : MetadataDb) (key val : Str) : Except Exn MetadataDb := do
  assertThat ndebug (Path.isAbsolute key)
  assertThat ndebug (key == ['/'] || !Path.hasTrailingSlash key)
  return db.merge key (.create val)

/-- `db->Delete`. -/
def remove (db : MetadataDb) (key : Str) : MetadataDb := db.erase key

/-- A batch of a delete and a put. -/
def update (db : MetadataDb) (oldKey newKey val : Str) : MetadataDb :=
  (db.erase oldKey).insert newKey ⟨some val, []⟩

def increaseSize (db : MetadataDb) (key : Str) (size : Word) (append : Bool) : MetadataDb :=
  db.merge key (.increaseSize size append)

def decreaseSize (db : MetadataDb) (key : Str) (size : Word) : MetadataDb := db.merge key (.decreaseSize size)

def collapse (config : MetadataConfig) (ndebug : Bool) (db : MetadataDb) (key : Str) (count : Nat) : MetadataDb :=
  match db.lookup key with
  | none => db
  | some cell => db.insert key (cell.collapse config ndebug count)

section
variable {config : MetadataConfig} {ndebug : Bool} {db : MetadataDb} {key : Str}

theorem cell_of_lookup {cell : Cell} (found : db.lookup key = some cell) : db.cell key = cell := by
  rw [MetadataDb.cell, found, Option.getD_some]

theorem get_of_lookup_none (missing : db.lookup key = none) : db.get config ndebug key = .error .notFound := by
  rw [get, cell, missing]
  rfl

/-- A `put` that returns has merged a creation. -/
theorem put_eq_ok {val : Str} {stored : MetadataDb} (returned : db.put ndebug key val = .ok stored) :
    stored = db.merge key (.create val) := by
  simp only [put, bind, Except.bind] at returned
  split at returned
  next => cases returned
  next =>
    split at returned
    next => cases returned
    next => exact (Except.ok.inj returned).symm

end

theorem lookup_merge (db : MetadataDb) (key : Str) (operand : MergeOperand) (other : Str) :
    (db.merge key operand).lookup other =
      if other = key then some ((db.cell key).merge operand.serialize) else db.lookup other := by
  split
  next same => rw [same]; exact AList.lookup_insert db
  next different => exact AList.lookup_insert_ne different

theorem lookup_remove (db : MetadataDb) (key other : Str) :
    (db.remove key).lookup other = if other = key then none else db.lookup other := by
  split
  next same => rw [same]; exact AList.lookup_erase key db
  next different => exact AList.lookup_erase_ne different

theorem lookup_update (db : MetadataDb) (oldKey newKey val other : Str) :
    (db.update oldKey newKey val).lookup other =
      if other = newKey then some ⟨some val, []⟩ else if other = oldKey then none else db.lookup other := by
  split
  next same => rw [same]; exact AList.lookup_insert _
  next different => exact (AList.lookup_insert_ne different).trans (lookup_remove db oldKey other)

theorem lookup_collapse (config : MetadataConfig) (ndebug : Bool) (db : MetadataDb) (key : Str) (count : Nat) (other : Str) :
    (db.collapse config ndebug key count).lookup other =
      if other = key then (db.lookup key).map (Cell.collapse config ndebug count) else db.lookup other := by
  by_cases same : other = key
  · subst same
    rw [if_pos rfl]
    cases found : db.lookup other with
    | none => simp only [collapse, found, Option.map_none]
    | some cell =>
      simp only [collapse, found]
      exact AList.lookup_insert db
  · rw [if_neg same]
    cases found : db.lookup key with
    | none => simp only [collapse, found]
    | some cell =>
      simp only [collapse, found]
      exact AList.lookup_insert_ne same

/-- The prefix that the entries of a directory share. -/
def rootPath (dir : Str) : Str :=
  if !Path.hasTrailingSlash dir && dir.length != 1 then dir ++ ['/'] else dir

/-- One key of the iteration in `get_dirents`: nothing for the directory itself and
for what lies deeper. -/
def dirent (config : MetadataConfig) (ndebug : Bool) (root key value : Str) : Except Exn (Option (Str × Bool)) :=
  if key.length = root.length then .ok none
  else if '/' ∈ key.drop root.length then .ok none
  else do
    let md ← Metadata.parse config ndebug value
    return some (key.drop root.length, Mode.isDir md.mode)

/-- The keys in bytewise order, as an iterator over the column yields them. -/
def sortedKeys (db : MetadataDb) : List Str := db.keys.mergeSort

def getDirents (config : MetadataConfig) (ndebug : Bool) (db : MetadataDb) (dir : Str) :
    Except Exn (List (Str × Bool)) := do
  assertThat ndebug (Path.isAbsolute dir)
  let root := rootPath dir
  -- `Seek(root_path)`, then on as long as the key starts with it
  let entries ← (PrefixScan.scan root db.sortedKeys).mapM fun key => do
    dirent config ndebug root key (← db.get config ndebug key)
  return entries.filterMap fun entry => entry

end MetadataDb
end GekkoFwd
