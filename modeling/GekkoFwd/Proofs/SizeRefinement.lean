import GekkoFwd.Lib.Words
import GekkoFwd.Proofs.TruncateOwners

/-! The recorded size of one path against its sequential specification, over runs in
which calls on the path follow one another while RocksDB merges operands at will. -/

namespace GekkoFwd.Proofs.SizeRefinement
open RpcProgram ClientOps ClientSpec MergeLaws ChunkPartition IoPartition StorageSpec DataPath TruncateDaemon TruncateOwners

/-- The calls on a path that change its entry. -/
inductive Op (deployment : Deployment) where
  | create (client : Client deployment) (mode : Mode)
  | pwrite (client : Client deployment) (data : List Byte) (offset : Nat)
  | truncate (client : Client deployment) (length : Word)
  | openTrunc (client : Client deployment) (mode : Mode) (flags : OpenFlags)
  | remove (client : Client deployment)

namespace Op
variable {deployment : Deployment}

def run (pools : Nat → IoPool) (path : Str) (cluster : Cluster) : Op deployment → Option (SysResult Unit) × Cluster
  | .create client mode => (Cluster.server deployment pools).exec (gkfsCreate client path mode) cluster
  | .pwrite client data offset =>
    let ran := (Cluster.server deployment pools).exec (gkfsPwrite client path false data (.ofNat 64 offset)) cluster
    (ran.1.map (Except.map fun _ => ()), ran.2)
  | .truncate client length => (Cluster.server deployment pools).exec (gkfsTruncate client path length) cluster
  | .openTrunc client mode flags => (Cluster.server deployment pools).exec (gkfsOpen client path mode flags) cluster
  | .remove client => (Cluster.server deployment pools).exec (gkfsRemove client path) cluster

/-- When a call may be made: files are created where there is nothing, and written
while they are there. -/
def Admissible (size : Option Nat) : Op deployment → Prop
  | .create _ mode => size = none ∧ mode &&& Mode.ifmt ≠ Mode.ifdir
  | .pwrite _ data offset => size.isSome ∧ data ≠ [] ∧ offset + data.length < 2 ^ 63
  | .truncate _ _ => True
  | .openTrunc _ _ flags => Truncating flags
  | .remove _ => True

def created : SysResult Unit → Option Nat
  | .ok () => some 0
  | .error _ => none

/-- The specification: the size of the file after a call with the given result,
nothing when there is no file. -/
def next (size : Option Nat) (result : SysResult Unit) : Op deployment → Option Nat
  | .create _ _ => created result
  | .pwrite _ data offset => size.map fun old => max old (offset + data.length)
  | .truncate _ length => size.map fun old : Nat => if 0 ≤ length.toInt ∧ length.toInt ≤ old then length.toNat else old
  | .openTrunc _ _ flags =>
    size.elim (created result) fun old => some (if flags.oPath || flags.oAppend || flags.oExcl then old else 0)
  | .remove _ => none

end Op

/-- Runs with the size that the specification gives the path. All requests are answered, so
the daemons go on. Between the calls any leading operands of any key may be merged, and
anything may happen to other paths. -/
inductive Run (deployment : Deployment) (path : Str) : Cluster → Option Nat → Prop where
  | start {cluster : Cluster} (up : cluster.Up) (absent : (cluster.mdb (deployment.metadataHost path)).lookup path = none) :
      Run deployment path cluster none
  | call {cluster after : Cluster} {size : Option Nat} {result : SysResult Unit} {pools : Nat → IoPool}
      (before : Run deployment path cluster size) (op : Op deployment) (admissible : op.Admissible size)
      (returned : op.run pools path cluster = (some result, after)) (answered : after.Up) :
      Run deployment path after (op.next size result)
  | collapse {cluster : Cluster} {size : Option Nat} (before : Run deployment path cluster size) (host : Nat) (key : Str)
      (count : Nat) :
      Run deployment path (cluster.setDb host ((cluster.mdb host).collapse .default deployment.ndebug key count)) size
  | elsewhere {cluster after : Cluster} {size : Option Nat} (before : Run deployment path cluster size) (up : after.Up)
      (same : (after.mdb (deployment.metadataHost path)).lookup path =
        (cluster.mdb (deployment.metadataHost path)).lookup path) : Run deployment path after size

/-- A read of the key gives the size, or finds nothing, with assertions and without. -/
def SizeIs (db : MetadataDb) (path : Str) : Option Nat → Prop
  | none => ∀ ndebug, db.get .default ndebug path = .error .notFound
  | some size => ∃ value md, md.size.toNat = size ∧
      ∀ ndebug, db.get .default ndebug path = .ok value ∧ Metadata.parse .default ndebug value = .ok md

/-- The cell of the path stands for a regular file of the given size. -/
def Keeps (db : MetadataDb) (path : Str) : Option Nat → Prop
  | none => db.lookup path = none
  | some size => ∃ cell md, db.lookup path = some cell ∧ Holds false Signed cell md ∧
      Mode.isReg md.mode ∧ md.size.toNat = size

section Steps
variable {deployment : Deployment} {pools : Nat → IoPool} {client : Client deployment} {path : Str}
  {cluster after : Cluster} {db : MetadataDb} {size : Option Nat} {old : Nat}

theorem Keeps.sizeIs (keeps : Keeps db path size) : SizeIs db path size := by
  cases size with
  | none => exact fun ndebug => MetadataDb.get_of_lookup_none keeps
  | some size =>
    obtain ⟨cell, md, found, holds, _, same⟩ := keeps
    refine ⟨md.serialize .default, md, same, fun ndebug => ⟨?_, parse_serialize ndebug holds.recorded⟩⟩
    rw [MetadataDb.get, MetadataDb.cell_of_lookup found, (holds.release ndebug).value]

theorem Keeps.congr (keeps : Keeps db path size) {other : MetadataDb} (same : other.lookup path = db.lookup path) :
    Keeps other path size := by
  cases size with
  | none => exact same.trans keeps
  | some size =>
    obtain ⟨cell, md, found, rest⟩ := keeps
    exact ⟨cell, md, same.trans found, rest⟩

theorem Keeps.collapse (keeps : Keeps db path size) (ndebug : Bool) (key : Str) (count : Nat) :
    Keeps (db.collapse .default ndebug key count) path size := by
  by_cases here : path = key
  · subst here
    cases size with
    | none =>
      rw [Keeps] at keeps
      rw [Keeps, MetadataDb.lookup_collapse, if_pos rfl, keeps, Option.map_none]
    | some size =>
      obtain ⟨cell, md, found, holds, rest⟩ := keeps
      refine ⟨cell.collapse .default ndebug count, md, ?_, holds.collapse ndebug count, rest⟩
      rw [MetadataDb.lookup_collapse, if_pos rfl, found, Option.map_some]
  · exact keeps.congr (by rw [MetadataDb.lookup_collapse, if_neg here])

theorem Keeps.merge {cell : Cell} {md : Metadata} (found : db.lookup path = some cell)
    (holds : Holds false Signed cell md) (regular : Mode.isReg md.mode) {operand : MergeOperand}
    {size : Word} (applied : effect false md.size operand = .ok size) (small : Signed size) :
    Keeps (db.merge path operand) path (some size.toNat) := by
  refine ⟨cell.merge operand.serialize, { md with size }, ?_, .merge holds applied small, regular, rfl⟩
  rw [MetadataDb.lookup_merge, if_pos rfl, MetadataDb.cell_of_lookup found]

/-- The client reads the size that the specification gives. -/
theorem Keeps.entry (keeps : Keeps (cluster.mdb (deployment.metadataHost path)) path (some old)) :
    ∃ cell md, (cluster.mdb (deployment.metadataHost path)).lookup path = some cell ∧
      Holds false Signed cell md ∧ Mode.isReg md.mode ∧ md.size.toNat = old ∧
      ClientSpec.entry deployment cluster path = .ok md := by
  obtain ⟨cell, md, found, holds, regular, same⟩ := keeps
  exact ⟨cell, md, found, holds, regular, same, entry_of_holds found (holds.release deployment.ndebug)⟩

/-- The test of `gkfs_truncate` for a length that is refused. -/
theorem refused_iff {length size : Word} (small : Signed size) :
    length.slt 0 ∨ size < length ↔ ¬(0 ≤ length.toInt ∧ length.toInt ≤ size.toNat) := by
  have bounded : size.toNat < 2 ^ 63 := small
  have value := @BitVec.toInt_eq_toNat_cond 64 length
  have width := length.isLt
  rw [BitVec.slt_iff_toInt_lt, show (0 : Word).toInt = 0 from rfl, BitVec.lt_def]
  split at value <;> omega

theorem Keeps.create (keeps : Keeps (cluster.mdb (deployment.metadataHost path)) path none) {mode : Mode}
    (regular : mode &&& Mode.ifmt ≠ Mode.ifdir) {result : SysResult Unit}
    (ran : (Cluster.serving deployment pools).exec (gkfsCreate client path mode) cluster = (some result, after)) :
    Keeps (after.mdb (deployment.metadataHost path)) path (Op.created result) := by
  rcases exec_gkfsCreate ran with ⟨rfl, type, parent, typed, _, _, rfl⟩ | ⟨⟨errno, rfl⟩, rfl⟩
  · have file : Mode.isReg type := by
      rcases nodeMode_ok typed with ⟨file, _⟩ | ⟨_, directory⟩
      · exact file
      · exact absurd directory regular
    refine ⟨_, Metadata.ofMode type, ?_, .created (recorded_ofMode type), file, rfl⟩
    rw [Cluster.mdb_setDb, Function.update_self, MetadataDb.lookup_merge, if_pos rfl, MetadataDb.cell, show _ = none from keeps]
    rfl
  · exact keeps

theorem Keeps.increaseSize (keeps : Keeps db path (some old)) {length offset : Nat} (bounded : offset + length < 2 ^ 63) :
    Keeps (db.increaseSize path (.ofNat 64 length + .ofNat 64 offset) false) path (some (max old (offset + length))) := by
  obtain ⟨cell, md, found, holds, regular, rfl⟩ := keeps
  have bound : md.size.toNat < 2 ^ 63 := holds.recorded.size
  have last : (BitVec.ofNat 64 length + BitVec.ofNat 64 offset).toNat = offset + length := by
    rw [← BitVec.ofNat_add, Words.toNat_ofNat (by omega), Nat.add_comm]
  have grown : max md.size.toNat (offset + length) =
      (if BitVec.ofNat 64 length + BitVec.ofNat 64 offset < md.size then md.size
        else BitVec.ofNat 64 length + BitVec.ofNat 64 offset).toNat := by rw [Words.toNat_larger, last]
  have small : max md.size.toNat (offset + length) < 2 ^ 63 := Nat.max_lt.mpr ⟨bound, bounded⟩
  rw [grown] at small ⊢
  exact Keeps.merge found holds regular rfl small

theorem Keeps.pwrite (keeps : Keeps (cluster.mdb (deployment.metadataHost path)) path (some old)) (up : cluster.Up) {data : List Byte}
    {offset : Nat} (bounded : offset + data.length < 2 ^ 63) {result : SysResult Word}
    (ran : (Cluster.server deployment pools).exec (gkfsPwrite client path false data (.ofNat 64 offset)) cluster =
      (some result, after)) :
    Keeps (after.mdb (deployment.metadataHost path)) path (some (max old (offset + data.length))) := by
  have announced := @mdb_gkfsPwrite deployment pools cluster client path false data (.ofNat 64 offset) (up _)
  rw [ran] at announced
  rw [announced, Function.update_self]
  exact keeps.increaseSize bounded

theorem Keeps.truncateTo (keeps : Keeps (cluster.mdb (deployment.metadataHost path)) path (some old)) {md : Metadata}
    (read : ClientSpec.entry deployment cluster path = .ok md) {length : Word} (smaller : ¬md.size < length)
    {result : SysResult Unit}
    (ran : (Cluster.serving deployment pools).exec (gkfsTruncateTo client path md.size length) cluster = (some result, after)) :
    Keeps (after.mdb (deployment.metadataHost path)) path (some length.toNat) := by
  obtain ⟨cell, same, found, holds, regular, rfl, known⟩ := keeps.entry
  cases known.symm.trans read
  rcases exec_gkfsTruncateTo_mdb ran with ⟨rfl, _, rfl⟩ | ⟨different, changed⟩
  · exact ⟨cell, md, found, holds, regular, rfl⟩
  · have bound : md.size.toNat < 2 ^ 63 := holds.recorded.size
    have less : length < md.size := BitVec.lt_of_le_ne (BitVec.not_lt.mp smaller) different
    have small : Signed length := Nat.lt_trans (BitVec.lt_def.mp less) bound
    rw [changed, Function.update_self, MetadataDb.decreaseSize]
    exact Keeps.merge found holds regular (by simp [effect, less, bind, Except.bind, pure, Except.pure]) small

theorem Keeps.truncate (keeps : Keeps (cluster.mdb (deployment.metadataHost path)) path size) {length : Word}
    {result : SysResult Unit}
    (ran : (Cluster.serving deployment pools).exec (gkfsTruncate client path length) cluster = (some result, after)) :
    Keeps (after.mdb (deployment.metadataHost path)) path ((Op.truncate client length).next size result) := by
  cases size with
  | none =>
    rcases exec_gkfsTruncate ran with ⟨rfl, _⟩ | ⟨md, read, _⟩
    · exact keeps
    · cases (entry_of_lookup_none keeps).symm.trans read
  | some old =>
    obtain ⟨cell, md, found, holds, regular, rfl, read⟩ := keeps.entry
    have refused := @refused_iff length md.size holds.recorded.size
    rcases exec_gkfsTruncate ran with ⟨rfl, invalid⟩ | ⟨other, same, positive, smaller, ran⟩
    · rw [Op.next, Option.map_some, if_neg (refused.mp (invalid md read).1)]
      exact keeps
    · cases read.symm.trans same
      rw [Op.next, Option.map_some, if_pos (not_not.mp fun outside => ?_)]
      · exact keeps.truncateTo read smaller ran
      · rcases refused.mpr outside with negative | larger
        · cases positive.symm.trans negative
        · exact smaller larger

theorem or_ifreg_ne_ifdir (mode : Mode) : (mode ||| Mode.ifreg) &&& Mode.ifmt ≠ Mode.ifdir := by
  intro same
  have bit := congrArg (fun word => BitVec.getLsbD word 15) same
  simp [Mode.ifreg, Mode.ifmt, Mode.ifdir] at bit

theorem Keeps.openTrunc (keeps : Keeps (cluster.mdb (deployment.metadataHost path)) path size) {mode : Mode}
    {flags : OpenFlags} (truncating : Truncating flags) {result : SysResult Unit}
    (ran : (Cluster.serving deployment pools).exec (gkfsOpen client path mode flags) cluster = (some result, after)) :
    Keeps (after.mdb (deployment.metadataHost path)) path ((Op.openTrunc client mode flags).next size result) := by
  cases size with
  | none =>
    have missing := @entry_of_lookup_none deployment path cluster keeps
    rcases exec_gkfsOpen ran with ⟨rfl, succeeded, _⟩ | ⟨_, ran⟩ | ⟨md, read, _⟩
    · cases result with
      | error errno => exact keeps
      | ok _ =>
        obtain ⟨md, read⟩ := succeeded rfl
        cases missing.symm.trans read
    · exact keeps.create (or_ifreg_ne_ifdir mode) ran
    · cases missing.symm.trans read
  | some old =>
    obtain ⟨cell, md, found, holds, regular, rfl, read⟩ := keeps.entry
    rw [Op.next, Option.elim_some]
    rcases exec_gkfsOpen ran with ⟨rfl, _, refused⟩ | ⟨missing, _⟩ | ⟨other, same, _, accepted, ran⟩
    · rw [if_pos (refused truncating md read regular)]
      exact keeps
    · rw [ClientSpec.entry, missing] at read
      cases read
    · cases read.symm.trans same
      rw [accepted, if_neg Bool.false_ne_true]
      exact keeps.truncateTo read BitVec.not_lt_zero ran

theorem Keeps.remove (keeps : Keeps (cluster.mdb (deployment.metadataHost path)) path size) {result : SysResult Unit}
    (ran : (Cluster.serving deployment pools).exec (gkfsRemove client path) cluster = (some result, after)) :
    Keeps (after.mdb (deployment.metadataHost path)) path none := by
  rcases exec_gkfsRemove ran with ⟨md, hosts, _, member, removed⟩ | ⟨rfl, error, _, failed⟩
  · exact (removed _ _).trans (if_pos ⟨rfl, member⟩)
  · cases size with
    | none => exact keeps
    | some old =>
      obtain ⟨_, md, _, _, _, _, read⟩ := keeps.entry
      rw [ClientSpec.entry, failed] at read
      cases read

/-- One call follows the specification. -/
theorem Keeps.call (keeps : Keeps (cluster.mdb (deployment.metadataHost path)) path size) (up : cluster.Up) {op : Op deployment}
    (admissible : op.Admissible size) {result : SysResult Unit}
    (returned : op.run pools path cluster = (some result, after)) (answered : after.Up) :
    Keeps (after.mdb (deployment.metadataHost path)) path (op.next size result) := by
  have served : ∀ {program : Prog (SysResult Unit)}, (Cluster.server deployment pools).exec program cluster = (some result, after) →
      (Cluster.serving deployment pools).exec program cluster = (some result, after) := by
    intro program ran
    rw [← Cluster.exec_of_up (by rwa [ran]), ran]
  cases op with
  | create client mode =>
    obtain ⟨rfl, regular⟩ := admissible
    exact keeps.create regular (served returned)
  | pwrite client data offset =>
    obtain ⟨present, _, bounded⟩ := admissible
    obtain ⟨old, rfl⟩ := Option.isSome_iff_exists.mp present
    rw [Op.run, Prod.mk.injEq, Option.map_eq_some_iff] at returned
    obtain ⟨⟨written, ran, _⟩, rfl⟩ := returned
    exact keeps.pwrite up bounded (Prod.ext ran rfl)
  | truncate client length => exact keeps.truncate (served returned)
  | openTrunc client mode flags => exact keeps.openTrunc admissible (served returned)
  | remove client => exact keeps.remove (served returned)

theorem Run.up (run : Run deployment path cluster size) : cluster.Up := by
  induction run with
  | start up => exact up
  | call _ _ _ _ answered => exact answered
  | collapse _ _ _ _ up => exact up
  | elsewhere _ up => exact up

theorem Run.keeps (run : Run deployment path cluster size) : Keeps (cluster.mdb (deployment.metadataHost path)) path size := by
  induction run with
  | start _ absent => exact absent
  | call before op admissible returned answered ih => exact ih.call before.up admissible returned answered
  | collapse _ host key count ih =>
    rw [Cluster.mdb_setDb]
    by_cases here : deployment.metadataHost path = host
    · subst here
      rw [Function.update_self]
      exact ih.collapse deployment.ndebug key count
    · rw [Function.update_of_ne here]
      exact ih
  | elsewhere _ _ same ih => exact ih.congr same

/-- A length outside the file is refused and changes nothing. -/
theorem Keeps.exec_gkfsTruncate_einval (keeps : Keeps (cluster.mdb (deployment.metadataHost path)) path (some old))
    (up : cluster.Up) (client : Client deployment) {length : Word} (outside : ¬(0 ≤ length.toInt ∧ length.toInt ≤ old)) :
    (Cluster.server deployment pools).exec (gkfsTruncate client path length) cluster = (some (.error Errno.einval), cluster) := by
  obtain ⟨cell, md, found, holds, regular, rfl, read⟩ := keeps.entry
  rw [gkfsTruncate]
  rcases (refused_iff holds.recorded.size).mpr outside with negative | larger
  · rw [if_pos negative]
    rfl
  · by_cases negative : length.slt 0
    · rw [if_pos negative]
      rfl
    · rw [if_neg negative, Program.bind_eq, Server.exec_bind, exec_getMetadata_ok up read (by simp [not_isLnk_of_isReg regular])]
      simp [larger]

end Steps

/-! Which calls come to an end. -/

/-- The entry of a path, if there is one, can be read. -/
def Parses (deployment : Deployment) (cluster : Cluster) (path : Str) : Prop :=
  ∀ value, (cluster.mdb (deployment.metadataHost path)).get .default deployment.ndebug path = .ok value →
    ∃ md, Metadata.parse .default deployment.ndebug value = .ok md

/-- A cut does not count up to the last chunk number, which the counter cannot pass. -/
def CutEnds (old new : Nat) : Prop := new = old ∨ (old - new - 1) / chunksize % 2 ^ 32 ≠ 2 ^ 32 - 1

/-- A creation that gets as far as the entry above can read it. -/
def CreateEnds (deployment : Deployment) (cluster : Cluster) (path : Str) (mode : Mode) : Prop :=
  (∃ errno, nodeMode mode = .error errno) ∨ Parses deployment cluster (Path.dirname path)

/-- When a call on a path of the given size ends. -/
def Op.Ends {deployment : Deployment} (cluster : Cluster) (path : Str) (size : Option Nat) : Op deployment → Prop
  | .create _ mode => CreateEnds deployment cluster path mode
  | .pwrite _ _ _ => True
  | .truncate _ length => ∀ old, size = some old → 0 ≤ length.toInt ∧ length.toInt ≤ old → CutEnds old length.toNat
  | .openTrunc _ mode flags => (flags.oPath || flags.oAppend) = true ∨
      size.elim ((!flags.oCreat || flags.oDirectory) = true ∨ CreateEnds deployment cluster path (mode ||| Mode.ifreg))
        fun old => flags.oExcl = true ∨ CutEnds old 0
  | .remove _ => True

section Endings
variable {deployment : Deployment} {pools : Nat → IoPool} {client : Client deployment} {path : Str}
  {cluster after : Cluster} {size : Option Nat} {old : Nat}

theorem returns_getMetadata_iff (up : cluster.Up) :
    ((Cluster.server deployment pools).exec (getMetadata client path false) cluster).1.isSome ↔ Parses deployment cluster path := by
  have asked : ((Cluster.server deployment pools).exec (forwardStat client path) cluster).1.isSome := by
    simp only [forwardStat, Program.bind_eq, Program.call_bind, Server.exec_post_one]
    split <;> rfl
  rw [getMetadata, Program.bind_eq, Server.exec_bind]
  cases answered : (Cluster.server deployment pools).exec (forwardStat client path) cluster with
  | mk answer between =>
    rw [answered] at asked
    obtain ⟨answer, rfl⟩ := Option.isSome_iff_exists.mp asked
    cases answer with
    | error errno =>
      -- no answer brings an entry where there is one
      refine iff_of_true rfl fun value read => ?_
      rw [serves_forwardStat up (by rw [read]; rintro ⟨⟩), read] at answered
      cases answered
    | ok attr =>
      obtain ⟨-, read⟩ := get_of_forwardStat answered
      have only : Parses deployment cluster path ↔ ∃ md, Metadata.parse .default deployment.ndebug attr = .ok md := by
        refine ⟨fun parses => parses attr read, fun parsed value same => ?_⟩
        cases read.symm.trans same
        exact parsed
      rw [only]
      cases parsed : Metadata.parse .default deployment.ndebug attr with
      | ok md => simp [parseAttr, parsed]
      | error error => simp [parseAttr, parsed]

theorem returns_gkfsCreate_iff (up : cluster.Up) {mode : Mode} :
    ((Cluster.server deployment pools).exec (gkfsCreate client path mode) cluster).1.isSome ↔
      CreateEnds deployment cluster path mode := by
  rw [gkfsCreate, CreateEnds, ← @returns_getMetadata_iff deployment pools client (Path.dirname path) cluster up]
  cases nodeMode mode with
  | error errno => exact iff_of_true rfl (.inl ⟨errno, rfl⟩)
  | ok type =>
    have created : ∀ between, ((Cluster.server deployment pools).exec (forwardCreate client path type) between).1.isSome := by
      intro between
      simp only [forwardCreate, Program.bind_eq, Program.call_bind, Server.exec_post_one]
      split <;> rfl
    simp only [checkParentDir, Program.bind_eq, Server.exec_bind, reduceCtorEq, exists_false, false_or]
    cases (Cluster.server deployment pools).exec (getMetadata client (Path.dirname path) false) cluster with
    | mk answer between =>
      rcases answer with _ | answer
      · rfl
      · refine iff_of_true ?_ rfl
        cases answer with
        | error errno => rfl
        | ok md =>
          by_cases directory : Mode.isDir md.mode
          · simpa [directory] using created between
          · simp [directory]

/-- A cut ends unless it goes up to the last chunk number. -/
theorem returns_gkfsTruncateTo_iff (up : cluster.Up) {oldSize newSize : Word} (smaller : ¬oldSize < newSize)
    (small : Signed oldSize) :
    ((Cluster.server deployment pools).exec (gkfsTruncateTo client path oldSize newSize) cluster).1.isSome ↔
      CutEnds oldSize.toNat newSize.toNat := by
  have limit : oldSize.toNat < 2 ^ 63 := small
  rw [BitVec.lt_def] at smaller
  have positive : newSize.slt 0 = false := by
    rw [BitVec.slt_eq_decide, decide_eq_false_iff_not, show (0 : Word).toInt = 0 from rfl, BitVec.toInt_eq_toNat_of_lt (by omega)]
    omega
  have ordered : newSize.sle oldSize = true := by
    rw [BitVec.sle_eq_decide, decide_eq_true_eq, BitVec.toInt_eq_toNat_of_lt (by omega), BitVec.toInt_eq_toNat_of_lt (by omega)]
    omega
  simp only [gkfsTruncateTo, positive, ordered, Bool.not_false, assertClient_true, Program.bind_eq, Program.pure_bind]
  by_cases same : newSize = oldSize
  · rw [if_pos same]
    exact iff_of_true rfl (.inl (congrArg _ same))
  have different : newSize.toNat ≠ oldSize.toNat := fun equal => same (BitVec.eq_of_toNat_eq equal)
  have less : newSize < oldSize := BitVec.lt_def.mpr (by omega)
  have started := @chunkStart_ofNat newSize.toNat (by omega)
  have ended := @chunkEnd_ofNat oldSize.toNat newSize.toNat (by omega) (by omega)
  simp only [BitVec.ofNat_toNat, BitVec.setWidth_eq] at started ended
  rw [if_neg same, Server.exec_bind, serves_forwardDecrSize up]
  simp only [forwardTruncate, decide_eq_true less, assertClient_true, Program.bind_eq, Program.pure_bind]
  rw [CutEnds, or_iff_right different, ← lastVisited]
  by_cases last : lastVisited oldSize.toNat newSize.toNat = 2 ^ 32 - 1
  · rw [last] at ended
    rw [collect_diverges ended]
    exact iff_of_false Bool.false_ne_true fun other => other last
  · have few : lastVisited oldSize.toNat newSize.toNat < 2 ^ 32 - 1 :=
      lt_of_le_of_ne (Nat.le_sub_one_of_lt (Nat.mod_lt _ (by decide))) last
    obtain ⟨hosts, collected, _⟩ := @collect_spec (client.locateData path) _ _ _ _ started ended (Nat.mod_lt _ (by decide)) few
    rw [collected]
    exact iff_of_true rfl last

theorem Keeps.returns_truncate_iff (keeps : Keeps (cluster.mdb (deployment.metadataHost path)) path size) (up : cluster.Up)
    {length : Word} :
    ((Cluster.server deployment pools).exec (gkfsTruncate client path length) cluster).1.isSome ↔
      (Op.truncate client length).Ends cluster path size := by
  cases size with
  | none =>
    refine iff_of_true ?_ nofun
    rw [gkfsTruncate]
    split
    next => rfl
    next => rw [Program.bind_eq, Server.exec_bind, exec_getMetadata_missing up keeps]; rfl
  | some old =>
    by_cases inside : 0 ≤ length.toInt ∧ length.toInt ≤ old
    · obtain ⟨cell, md, found, holds, regular, rfl, read⟩ := keeps.entry
      obtain ⟨positive, smaller⟩ := not_or.mp fun refused => (refused_iff holds.recorded.size).mp refused inside
      have only : (Op.truncate client length).Ends cluster path (some md.size.toNat) ↔ CutEnds md.size.toNat length.toNat :=
        ⟨fun ends => ends _ rfl inside, fun ends old same _ => by cases same; exact ends⟩
      rw [only, gkfsTruncate, if_neg positive, Program.bind_eq, Server.exec_bind,
        exec_getMetadata_ok up read (by simp [not_isLnk_of_isReg regular])]
      simp only [smaller, if_false]
      exact returns_gkfsTruncateTo_iff up smaller holds.recorded.size
    · rw [keeps.exec_gkfsTruncate_einval up client inside]
      refine iff_of_true rfl fun other same reached => ?_
      cases same
      exact absurd reached inside

theorem Keeps.returns_open_iff (keeps : Keeps (cluster.mdb (deployment.metadataHost path)) path size) (up : cluster.Up)
    {mode : Mode} {flags : OpenFlags} (truncating : Truncating flags) :
    ((Cluster.server deployment pools).exec (gkfsOpen client path mode flags) cluster).1.isSome ↔
      (Op.openTrunc client mode flags).Ends cluster path size := by
  rw [gkfsOpen, Op.Ends]
  by_cases refused : flags.oPath = true
  · rw [if_pos refused]
    exact iff_of_true rfl (.inl (by simp [refused]))
  by_cases appending : flags.oAppend = true
  · rw [if_neg refused, if_pos appending]
    exact iff_of_true rfl (.inl (by simp [appending]))
  rw [if_neg refused, if_neg appending, or_iff_right (by simp [refused, appending]), Program.bind_eq, Server.exec_bind]
  cases size with
  | none =>
    rw [exec_getMetadata_missing up keeps, Option.elim_none]
    by_cases plain : flags.oCreat = true
    · by_cases directory : flags.oDirectory = true
      · simp [plain, directory]
      · simp [plain, directory, returns_gkfsCreate_iff up]
    · simp [plain]
  | some old =>
    obtain ⟨cell, md, found, holds, regular, rfl, read⟩ := keeps.entry
    rw [exec_getMetadata_ok up read (by simp), Option.elim_some]
    by_cases shared : flags.oExcl = true
    · simp [shared]
    · simp only [shared, not_isLnk_of_isReg regular, mt (not_isReg_of_isDir ·) (not_not.mpr regular), regular,
        assertClient_true, Program.bind_eq, Program.pure_bind, if_false, Bool.false_eq_true, false_or]
      rw [Truncating] at truncating
      rw [if_pos truncating]
      exact returns_gkfsTruncateTo_iff up BitVec.not_lt_zero holds.recorded.size

/-- The calls that come to an end, exactly. -/
theorem Keeps.returns_iff (keeps : Keeps (cluster.mdb (deployment.metadataHost path)) path size) (up : cluster.Up)
    {op : Op deployment} (admissible : op.Admissible size) :
    (op.run pools path cluster).1.isSome ↔ op.Ends cluster path size := by
  cases op with
  | create client mode => exact returns_gkfsCreate_iff up
  | pwrite client data offset =>
    obtain ⟨_, nonempty, bounded⟩ := admissible
    obtain ⟨targets, request, final, dispatch⟩ :=
      exists_dispatch client path ⟨offset, data.length, List.length_pos_iff.mpr nonempty, bounded⟩
    refine iff_of_true ?_ trivial
    rw [Op.run, exec_gkfsPwrite_eq up dispatch rfl]
    rfl
  | truncate client length => exact keeps.returns_truncate_iff up
  | openTrunc client mode flags => exact keeps.returns_open_iff up admissible
  | remove client =>
    refine iff_of_true ?_ trivial
    rw [Op.run, gkfsRemove, Program.bind_eq, Server.exec_bind]
    cases size with
    | none => rw [exec_getMetadata_missing up keeps]; rfl
    | some old =>
      obtain ⟨cell, md, found, holds, regular, rfl, read⟩ := keeps.entry
      rw [exec_getMetadata_ok up read (by simp)]
      rfl

end Endings

/-- In every run the size that a read of the database gives is the one of the
specification. No merge of pending operands fails, with assertions or without, a truncate
to a length outside the file is refused, and the next call returns exactly if no cut in it
goes up to the last chunk number and no creation finds an unreadable entry above. -/
theorem recorded_size_refines {deployment : Deployment} {path : Str} {cluster : Cluster} {size : Option Nat}
    (run : Run deployment path cluster size) :
    SizeIs (cluster.mdb (deployment.metadataHost path)) path size ∧
      (∀ cell, (cluster.mdb (deployment.metadataHost path)).lookup path = some cell → ∀ count, cell.operands.take count ≠ [] →
        ∃ value, ∀ ndebug, MetadataMergeOperator.fullMergeV2 .default ndebug cell.base (cell.operands.take count) = .ok value) ∧
      (∀ old, size = some old → ∀ (pools : Nat → IoPool) (client : Client deployment) (length : Word),
        ¬(0 ≤ length.toInt ∧ length.toInt ≤ old) →
        (Cluster.server deployment pools).exec (gkfsTruncate client path length) cluster =
          (some (.error Errno.einval), cluster)) ∧
      ∀ (pools : Nat → IoPool) (op : Op deployment), op.Admissible size →
        ((op.run pools path cluster).1.isSome ↔ op.Ends cluster path size) := by
  have keeps := run.keeps
  refine ⟨keeps.sizeIs, fun cell found count pending => ?_, ?_, fun pools op admissible => keeps.returns_iff run.up admissible⟩
  · cases size with
    | none => cases found.symm.trans keeps
    | some size =>
      obtain ⟨same, md, known, holds, _⟩ := keeps
      cases found.symm.trans known
      exact holds.merges pending
  · rintro old rfl pools client length outside
    exact keeps.exec_gkfsTruncate_einval run.up client outside

theorem exists_run_created : ∃ cluster, Healthy cluster ∧ Run (.pair List.length) "/file".toList cluster (some 0) := by
  let create : Op (.pair List.length) := .create (.first _) 0o644
  have created : (create.run (fun _ => frugalPool) "/file".toList .fresh).1 = some (.ok ()) := rfl
  have healthy : Healthy (create.run (fun _ => frugalPool) "/file".toList .fresh).2 :=
    ⟨healthy_fresh.stores, healthy_fresh.up⟩
  exact ⟨_, healthy, (Run.start Cluster.up_fresh rfl).call create ⟨rfl, by decide⟩ (Prod.ext created rfl) healthy.up⟩

/-- A file that has been created and written once. -/
theorem exists_run_written {offset : Nat} {data : List Byte} (some_data : data ≠ [])
    (bounded : offset + data.length ≤ 2 ^ 32 * chunksize) :
    ∃ cluster, Run (.pair List.length) "/file".toList cluster (some (offset + data.length)) := by
  obtain ⟨cluster, healthy, empty⟩ := exists_run_created
  have positive := List.length_pos_iff.mpr some_data
  simp only [chunksize] at bounded
  let range : IoRange := ⟨offset, data.length, positive, by omega⟩
  have narrow : range.split.last < 2 ^ 32 := by
    refine (Nat.div_lt_iff_lt_mul range.split.block_pos).mpr ?_
    simp only [IoRange.split, range, chunksize]
    omega
  obtain ⟨after, ran, kept, _⟩ := @exec_gkfsPwrite _ _ range data _ cluster (.first (.pair List.length)) storable_file
    (fun _ => frugalPool_complete) rfl narrow false healthy
  have returned : (Op.pwrite (.first (.pair List.length)) data offset).run (fun _ => frugalPool) "/file".toList cluster =
      (some (.ok ()), after) := by
    rw [Op.run, show offset = range.offset from rfl, ran]
    rfl
  have written := empty.call (.pwrite (.first _) data offset) ⟨rfl, some_data, by omega⟩ returned kept.up
  rw [Op.next, Option.map_some, Nat.zero_max] at written
  exact ⟨after, written⟩

/-- A file is created, written and merged. Then it can be cut. -/
theorem recorded_size_refines_file : ∃ cluster, Run (.pair List.length) "/file".toList cluster (some 12) ∧
    SizeIs (cluster.mdb (Deployment.metadataHost (.pair List.length) "/file".toList)) "/file".toList (some 12) ∧
    ((Op.truncate (.first (.pair List.length)) 4).run (fun _ => frugalPool) "/file".toList cluster).1.isSome := by
  obtain ⟨written, run⟩ := @exists_run_written 3 (List.replicate 9 0) (by decide) (by decide)
  have merged := run.collapse 0 "/file".toList 1
  obtain ⟨size, _, _, ends⟩ := recorded_size_refines merged
  refine ⟨_, merged, size, (ends (fun _ => frugalPool) (.truncate (.first _) 4) trivial).mpr fun old same _ => .inr ?_⟩
  cases same
  decide

/-- A cut of a file of 2^51 bytes to nothing: the client counts for ever. -/
theorem truncate_never_returns : ∃ cluster, Run (.pair List.length) "/file".toList cluster (some (2 ^ 51)) ∧
    (Op.truncate (.first (.pair List.length)) 0).Admissible (some (2 ^ 51)) ∧
    ((Op.truncate (.first (.pair List.length)) 0).run (fun _ => frugalPool) "/file".toList cluster).1 = none := by
  obtain ⟨cluster, run⟩ := @exists_run_written (2 ^ 51 - 1) [7] (by decide) (by decide)
  refine ⟨cluster, run, trivial, Option.not_isSome_iff_eq_none.mp fun returned => ?_⟩
  have ends := (@Keeps.returns_iff _ _ _ _ _ run.keeps run.up (.truncate (.first _) 0) trivial).mp returned
  rcases ends _ rfl (by decide) with same | other
  · cases same
  · exact other (by decide)

end GekkoFwd.Proofs.SizeRefinement
