import Mathlib.Data.List.AList
import GekkoFwd.ChunkSplit

/-! The forwarding map of a client (`client/preload_util.cpp`): it is loaded once when
the library starts, and again and again by the thread `forwarding_mapper`
(`client/preload.cpp`). -/

namespace GekkoFwd

/-- `map<string, uint64_t>`, from host names to forwarders. -/
abbrev ForwardingMap := AList fun _ : Str => Word

namespace ForwardingMap

/-- The lines that `getline` finds; a newline at the end begins no other one. -/
def lines (text : Str) : List Str :=
  let pieces := text.splitOn '\n'
  if pieces.getLast? = some [] then pieces.dropLast else pieces

/-- The groups of `^(\S+)\s+(\S+)$`. -/
def matchLine (line : Str) : Option (Str × Str) :=
  let host := line.takeWhile fun c => !DecText.isSpace c
  let blanks := (line.drop host.length).takeWhile DecText.isSpace
  let forwarder := line.drop (host.length + blanks.length)
  if host.isEmpty || blanks.isEmpty || forwarder.isEmpty || forwarder.any DecText.isSpace then none
  else some (host, forwarder)

/-- A later line of the same host counts. `stoi` gives an `int`, which the map widens. -/
def addLine (map : ForwardingMap) (line : Str) : Except Exn ForwardingMap :=
  match matchLine line with
  | none => .error .runtimeError
  | some (host, forwarder) =>
    match DecText.stoi forwarder with
    | .error .invalidArgument => .error .invalidArgument
    | .error .outOfRange => .error .outOfRange
    | .ok (value, _) => .ok (map.insert host (.ofInt 64 value))

/-- `load_forwarding_map_file`; a file that cannot be opened has no content. -/
def loadFile (content : Option Str) : Except Exn ForwardingMap :=
  match content with
  | none => .error .runtimeError
  | some text => (lines text).foldlM addLine ∅

/-- The loop of `load_forwarding_map`, which reads the file until the map has an entry:
nothing as long as it has none. -/
def loadUntilFilled : List (Option Str) → Option (Except Exn ForwardingMap)
  | [] => none
  | content :: contents =>
    match loadFile content with
    | .error _ => some (.error .runtimeError)
    | .ok map => if map.keys.isEmpty then loadUntilFilled contents else some (.ok map)

end ForwardingMap

/-- What the client's context says about forwarding, and the lines "Forward to" of its log. -/
structure ForwardingContext where
  hosts : Nat
  fwdHostId : Word
  distributor : Option Distributor
  log : List Word

namespace ForwardingContext

/-- `load_forwarding_map` with the contents that its reads of the file find. -/
def loadForwardingMap (hostname : Str) (contents : List (Option Str)) (context : ForwardingContext) :
    Option (Except Exn ForwardingContext) :=
  (ForwardingMap.loadUntilFilled contents).map fun loaded => do
    let map ← loaded
    match map.lookup hostname with
    | none => throw .runtimeError
    | some forwarder => return { context with fwdHostId := forwarder }

/-- The part of `init_ld_environment_` on the distributor, once the hosts are known. Its
host numbers have 32 bits. -/
def initLdEnvironment (hostname : Str) (contents : List (Option Str)) (context : ForwardingContext) :
    Option (Except Exn ForwardingContext) :=
  (context.loadForwardingMap hostname contents).map fun loaded => do
    let context ← loaded
    return { context with
      distributor := some (.forwarder (context.fwdHostId.toNat % 2 ^ 32) (context.hosts % 2 ^ 32))
      log := context.log ++ [context.fwdHostId] }

/-- The host that the client's data goes to. -/
def locateData (strHash : Str → Nat) (context : ForwardingContext) (path : Str) (chnkId : Nat) : Option Nat :=
  context.distributor.map fun distributor => distributor.locateData strHash path chnkId

/-- The requests of `forward_write` and `forward_read`. -/
def inputs (strHash : Str → Nat) (context : ForwardingContext) (transfer : Transfer) (path : Str) : Option (List (Nat × DataIn)) :=
  context.distributor.bind fun distributor =>
    ForwardSplit.inputs (distributor.locateData strHash path) context.hosts path transfer.offset transfer.size

end ForwardingContext

/-- The thread with its local variable `previous`, an `int`. -/
structure ForwardingMapper where
  context : ForwardingContext
  previous : BitVec 32

namespace ForwardingMapper

/-- One round of the loop of `forwarding_mapper`. An exception ends the process. -/
def round (hostname : Str) (contents : List (Option Str)) (mapper : ForwardingMapper) : Option (Except Exn ForwardingMapper) :=
  (mapper.context.loadForwardingMap hostname contents).map fun loaded => do
    let context ← loaded
    if mapper.previous.signExtend 64 ≠ context.fwdHostId then
      return ⟨{ context with log := context.log ++ [context.fwdHostId] }, context.fwdHostId.truncate 32⟩
    else return { mapper with context }

end ForwardingMapper
end GekkoFwd
