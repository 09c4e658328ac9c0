import GekkoFwd.Metadata

/-! The merge operator of the metadata database (`daemon/backend/metadata/merge.cpp`).
Operands and values are texts; an update only appends an operand. -/

namespace GekkoFwd

inductive MergeOperand where
  | increaseSize (size : Word) (append : Bool)
  | decreaseSize (size : Word)
  | create (metadata : Str)
  deriving DecidableEq

namespace MergeOperand

def id : MergeOperand → Char
  | .increaseSize _ _ => 'i'
  | .decreaseSize _ => 'd'
  | .create _ => 'c'

def serializeParams : MergeOperand → Str
  | .increaseSize size append => DecText.toText size.toNat ++ [',', if append then 't' else 'f']
  | .decreaseSize size => DecText.toText size.toNat
  | .create metadata => metadata

def serialize (operand : MergeOperand) : Str := operand.id :: ':' :: operand.serializeParams

/-- The first character; the empty text has none. -/
def getId (serialized : Str) : Char := serialized.headD '\x00'

def getParams (ndebug : Bool) (serialized : Str) : Except Exn Str := do
  assertThat ndebug (serialized[1]? == some ':')
  return serialized.drop 2

/-- `IncreaseSizeOperand(serialized_op)`. -/
def parseIncreaseSize (ndebug : Bool) (params : Str) : Except Exn (Word × Bool) := do
  let (size, read) ← Metadata.ofFailure (DecText.stoul params)
  assertThat ndebug (params[read]? == some ',')
  assertThat ndebug (params[read + 1]? == some 'f' || params[read + 1]? == some 't')
  assertThat ndebug (read + 2 == params.length)
  return (.ofNat 64 size, params[read + 1]? != some 'f')

/-- The same constructor on a slice in memory: `stoul` gets the slice's address and may go
on with what lies `behind` the slice. -/
def increaseSizeOfSlice (ndebug : Bool) (params behind : Str) : Except Exn (Word × Bool) := do
  let (size, read) ← Metadata.ofFailure (DecText.stoul (Metadata.cStr (params ++ behind) 0))
  assertThat ndebug (params[read]? == some ',')
  assertThat ndebug (params[read + 1]? == some 'f' || params[read + 1]? == some 't')
  assertThat ndebug (read + 2 == params.length)
  return (.ofNat 64 size, params[read + 1]? != some 'f')

/-- `DecreaseSizeOperand(serialized_op)`. -/
def parseDecreaseSize (ndebug : Bool) (params : Str) : Except Exn Word := do
  let (size, read) ← Metadata.ofFailure (DecText.stoul params)
  assertThat ndebug (read == params.length)
  return .ofNat 64 size

end MergeOperand

namespace MetadataMergeOperator

/-- One round of the loop over the operands. -/
def applyOperand (ndebug : Bool) (fsize : Word) (serialized : Str) : Except Exn Word := do
  assertThat ndebug (decide (2 ≤ serialized.length))
  let parameters ← MergeOperand.getParams ndebug serialized
  if MergeOperand.getId serialized = 'i' then
    let (size, append) ← MergeOperand.parseIncreaseSize ndebug parameters
    return if append then fsize + size else if size < fsize then fsize else size
  else if MergeOperand.getId serialized = 'd' then
    let size ← MergeOperand.parseDecreaseSize ndebug parameters
    -- we assume no concurrency here
    assertThat ndebug (decide (size < fsize))
    return size
  else if MergeOperand.getId serialized = 'c' then return fsize
  else .error .runtimeError

/-- The value to start from and the operands that remain. -/
def mergeStart (ndebug : Bool) (existingValue : Option Str) (operandList : List Str) : Except Exn (Str × List Str) :=
  match existingValue, operandList with
  | some value, operands => .ok (value, operands)
  | none, [] => .error .runtimeError
  | none, first :: operands => do
    -- the key does not exist and the first operand is not a creation
    if MergeOperand.getId first ≠ 'c' then .error .runtimeError
    else return (← MergeOperand.getParams ndebug first, operands)

def fullMergeV2 (config : MetadataConfig) (ndebug : Bool) (existingValue : Option Str) (operandList : List Str) :
    Except Exn Str := do
  let (prevMdValue, operands) ← mergeStart ndebug existingValue operandList
  let md ← Metadata.parse config ndebug prevMdValue
  let fsize ← operands.foldlM (applyOperand ndebug) md.size
  return { md with size := fsize }.serialize config

end MetadataMergeOperator
end GekkoFwd
