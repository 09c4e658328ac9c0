import GekkoFwd.Proofs.DirectoryCalls

/-! The inode number of an entry in a listing and the one that a lookup of its path gives. -/

namespace GekkoFwd.Proofs.InodeNumbers
open RpcProgram DirRecords DirectoryRecords DirectoryCalls DirectoryListing FileOps ClientOps ClientSpec

section lookup
variable {deployment : Deployment} {pools : Nat → IoPool} {client : Client deployment} {config : FsConfig} {hash : Str → Word}
  {cluster after : Cluster} {path : Str}

theorem exec_gkfsStat {followLinks : Bool} {stat : Stat}
    (ran : (Cluster.server deployment pools).exec (gkfsStat client config hash path followLinks) cluster = (some (.ok stat), after)) :
    stat.ino = hash path := by
  obtain ⟨answer, between, _, rest⟩ := Server.exec_bind_eq_some _ ran
  cases answer with
  | error errno => cases rest
  | ok md =>
    cases rest
    rfl

theorem exec_gkfsStatx {followLinks : Bool} {statx : Statx}
    (ran : (Cluster.server deployment pools).exec (gkfsStatx client config hash path followLinks) cluster = (some (.ok statx), after)) :
    statx.ino = hash path := by
  obtain ⟨answer, between, _, rest⟩ := Server.exec_bind_eq_some _ ran
  cases answer with
  | error errno => cases rest
  | ok md =>
    cases rest
    rfl

theorem exec_map {α : Type} {program : Prog (SysResult α)} {field : α → Word} {ino value : Word}
    (each : ∀ {after result}, (Cluster.server deployment pools).exec program cluster = (some (.ok result), after) → field result = value)
    (ran : (Cluster.server deployment pools).exec (do return (← program).map field) cluster = (some (.ok ino), after)) : ino = value := by
  obtain ⟨answer, between, asked, rest⟩ := Server.exec_bind_eq_some _ ran
  cases answer with
  | error errno => cases rest
  | ok result =>
    cases rest
    exact each asked

theorem exec_ino {lookup : Lookup} {ino : Word}
    (ran : (Cluster.server deployment pools).exec (lookup.ino client config hash) cluster = (some (.ok ino), after)) :
    ino = hash lookup.path := by
  cases lookup with
  | stat path => exact exec_map exec_gkfsStat ran
  | lstat path => exact exec_map exec_gkfsStat ran
  | fstat file => exact exec_map exec_gkfsStat ran
  | fstatat path => exact exec_map exec_gkfsStat ran
  | statx path => exact exec_map exec_gkfsStatx ran

theorem exec_stat_ino (up : cluster.Up) {md : Metadata} (found : entry deployment cluster path = .ok md)
    (direct : Mode.isLnk md.mode = false) :
    (Cluster.server deployment pools).exec ((Lookup.stat path).ino client config hash) cluster = (some (.ok (hash path)), cluster) := by
  have asked := @exec_getMetadata_ok deployment pools client path cluster up md found true direct
  simp only [Lookup.ino, gkfsStat, Program.bind_eq, Program.pure_eq, Server.exec_bind, asked, Server.exec_pure]
  rfl

end lookup

/-- A listing of the entry from a position has the hash of the directory's path, a separator and
the name. -/
theorem ino_of_decoded {layout : Layout} {hash : Str → Word} {openDir after : OpenFile} (dir : Open openDir) {count : BitVec 32}
    {memory written : Nat → Char} {outcome : Outcome} {seen : List Record} {record : Record}
    (called : layout.getdents hash openDir count memory = some (outcome, after, written))
    (decoded : decode layout outcome written = some seen) (listed : record ∈ seen) :
    record.ino = (hash (inodePath openDir record.name)).toNat := by
  obtain ⟨_, _, _, same, answers⟩ := answered layout hash dir count memory
  cases called.symm.trans same
  cases decoded.symm.trans answers.decoded
  obtain ⟨index, _, rfl⟩ := List.mem_mapIdx.mp (List.mem_of_mem_take (List.mem_of_mem_drop listed))
  rfl

theorem exists_decoded (layout : Layout) (hash : Str → Word) {openDir : OpenFile} (dir : Open openDir) {entry : Str × Bool}
    (here : openDir.entries[openDir.pos.toNat]? = some entry) (memory : Nat → Char) :
    ∃ count outcome after written seen, layout.getdents hash openDir count memory = some (outcome, after, written) ∧
      decode layout outcome written = some seen ∧ recordOf layout hash openDir openDir.pos.toNat entry ∈ seen := by
  have inside : openDir.pos.toNat < openDir.entries.length := (List.getElem?_eq_some_iff.mp here).1
  have room : (BitVec.ofNat 32 (layout.totalSize entry.1)).toNat = layout.totalSize entry.1 := by
    have bound := totalSize_le layout entry.1
    have short := dir.short entry (List.mem_of_getElem? here)
    rw [Path.maxLength] at short
    exact Words.toNat_ofNat (by omega)
  obtain ⟨outcome, after, written, called, answers⟩ := answered layout hash dir (.ofNat 32 (layout.totalSize entry.1)) memory
  refine ⟨_, outcome, after, written, _, called, answers.decoded, ?_⟩
  have fits : ¬ outcome.ret < 0 := by
    rw [answers.refused, here, room]
    simp
  have more : outcome.ret ≠ 0 := answers.ended.not.mpr (Nat.not_le.mpr inside)
  have forward := answers.forward (by omega)
  apply List.mem_of_getElem? (i := 0)
  rw [List.getElem?_drop, Nat.add_zero, List.getElem?_take_of_lt forward, records, List.getElem?_mapIdx, here]
  rfl

/-- A listing from some position of the directory has a record with this number for the name. -/
def Lists (hash : Str → Word) (openDir : OpenFile) (name : Str) (ino : Nat) : Prop :=
  ∃ (layout : Layout) (pos : Word) (count : BitVec 32) (memory : Nat → Char) (outcome : Outcome) (after : OpenFile) (written : Nat → Char)
    (seen : List Record), pos.toNat ≤ openDir.entries.length ∧
      layout.getdents hash { openDir with pos } count memory = some (outcome, after, written) ∧
      decode layout outcome written = some seen ∧ ∃ record ∈ seen, record.name = name ∧ record.ino = ino

/-- One of the lookups of the path gives this number. -/
def Finds {deployment : Deployment} (pools : Nat → IoPool) (client : Client deployment) (config : FsConfig) (cluster : Cluster)
    (hash : Str → Word) (path : Str) (ino : Nat) : Prop :=
  ∃ (lookup : Lookup) (found : Word) (after : Cluster), lookup.path = path ∧
    (Cluster.server deployment pools).exec (lookup.ino client config hash) cluster = (some (.ok found), after) ∧ found.toNat = ino

/-- Listings and lookups give an entry the same inode number, whatever the hash function,
exactly when its directory is not the root. -/
theorem inodes_agree_iff {deployment : Deployment} (pools : Nat → IoPool) (client : Client deployment) (config : FsConfig)
    {cluster : Cluster}
    (up : cluster.Up) {names : List Str} (valid : ∀ name ∈ names, Path.IsName name) {name : Str} {isDir : Bool} {openDir : OpenFile}
    (dir : Open openDir) (path : openDir.path = Path.join names) (listed : (name, isDir) ∈ openDir.entries) {md : Metadata}
    (found : entry deployment cluster (Path.join (names ++ [name])) = .ok md) (direct : Mode.isLnk md.mode = false) :
    (∀ (hash : Str → Word) (inListing inStat : Nat), Lists hash openDir name inListing →
      Finds pools client config cluster hash (Path.join (names ++ [name])) inStat → inListing = inStat) ↔ openDir.path ≠ ['/'] := by
  constructor
  · intro agree top
    have root : names = [] := (Path.join_eq_root valid).mp (path.symm.trans top)
    obtain ⟨index, here⟩ := List.mem_iff_getElem?.mp listed
    have inside : index < openDir.entries.length := (List.getElem?_eq_some_iff.mp here).1
    have position : (BitVec.ofNat 64 index).toNat = index :=
        Words.toNat_ofNat (Nat.lt_trans inside (Nat.lt_trans dir.length_lt (by decide)))
    -- A hash function that knows the path with one separator.
    obtain ⟨count, outcome, after, written, seen, called, decoded, member⟩ :=
      @exists_decoded .linuxDirent (fun path => if path = '/' :: name then 1 else 0) _ (@Open.at _ dir (.ofNat 64 index) (by omega))
        (name, isDir) (by rw [position]; exact here) (fun _ => Dirents.nul)
    have same := agree (fun path => if path = '/' :: name then 1 else 0) _ _
      ⟨_, _, count, _, outcome, after, written, seen, by omega, called, decoded, _, member, rfl, rfl⟩
      ⟨.stat _, _, _, rfl, exec_stat_ino up found direct, rfl⟩
    simp [recordOf, inodePath, top, root] at same
  · intro below hash inListing inStat lists finds
    obtain ⟨layout, pos, count, memory, outcome, after, written, seen, inside, called, decoded, record, member, rfl, rfl⟩ := lists
    obtain ⟨lookup, ino, after, passed, ran, rfl⟩ := finds
    have nonempty : names ≠ [] := fun empty => below (by rw [path, empty]; rfl)
    rw [ino_of_decoded (dir.at inside) called decoded member, exec_ino ran, passed, Path.join_concat, if_neg nonempty, ← path]
    rfl

/-- The files `/a` and `/d/a`, on every host. -/
def twoFiles : Cluster where
  mdb _ := [⟨"/a".toList, ⟨some ((Metadata.ofMode Mode.ifreg).serialize .default), []⟩⟩,
    ⟨"/d/a".toList, ⟨some ((Metadata.ofMode Mode.ifreg).serialize .default), []⟩⟩].toAList
  storage _ := ∅
  down _ := false

def config : FsConfig := ⟨"/m".toList, 0, 0, false, false, false, false, false⟩

theorem inodes_agree_iff_opened : opened.path ≠ ['/'] ∧ ∀ hash inListing inStat, Lists hash opened "a".toList inListing →
    Finds default (.first (.pair List.length)) config twoFiles hash "/d/a".toList inStat → inListing = inStat :=
  ⟨by decide, (@inodes_agree_iff (.pair List.length) default (.first _) config twoFiles (fun _ => rfl) ["d".toList]
    (by decide) "a".toList false opened
    open_opened rfl (by decide) (Metadata.ofMode Mode.ifreg) (record_of_put rfl) rfl).mpr (by decide)⟩

/-- The entries of `opened`, in the root directory. -/
def openedRoot : OpenFile := { opened with path := ['/'] }

/-- With the length of the path as its hash, `/a` is 3 in a listing and 2 for `stat`. -/
theorem root_inodes_differ : Lists (fun path => .ofNat 64 path.length) openedRoot "a".toList 3 ∧
    Finds default (.first (.pair List.length)) config twoFiles (fun path => .ofNat 64 path.length) "/a".toList 2 := by
  have dir : Open openedRoot := ⟨rfl, open_opened.received, open_opened.short, open_opened.pos⟩
  obtain ⟨count, outcome, after, written, seen, called, decoded, member⟩ :=
    @exists_decoded .linuxDirent (fun path => .ofNat 64 path.length) openedRoot dir ("a".toList, false) rfl (fun _ => Dirents.nul)
  refine ⟨⟨_, 0, count, _, outcome, after, written, seen, by decide, called, decoded, _, member, rfl, by decide⟩, ?_⟩
  exact ⟨.stat _, _, _, rfl, @exec_stat_ino _ _ _ _ _ twoFiles _ (fun _ => rfl) (Metadata.ofMode Mode.ifreg) (record_of_put rfl) rfl,
    by decide⟩

end GekkoFwd.Proofs.InodeNumbers
