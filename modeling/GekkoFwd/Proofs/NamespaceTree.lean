import GekkoFwd.Proofs.ClientRequests
import GekkoFwd.Proofs.DirectoryListing
import GekkoFwd.Proofs.StorageSpec

/-! The stored paths as a tree. Creation checks the parent and `rmdir` looks for
entries, but an unlink removes whatever the path names, and nothing protects the
root. -/

namespace GekkoFwd.Proofs.NamespaceTree
open RpcProgram ClientOps ClientSpec ClientRequests MergeLaws DirectoryListing

/-- The calls that make and remove entries. `unlinkat` with `AT_REMOVEDIR` is `rmdir`. -/
inductive Call where
  | open (mode : Mode) (flags : OpenFlags)
  | mkdir (mode : Mode)
  | unlink
  | rmdir

def Call.run {deployment : Deployment} (client : Client deployment) (path : Str) : Call → Prog (SysResult Unit)
  | .open mode flags => gkfsOpen client path mode flags
  | .mkdir mode => ClientOps.mkdir client path mode
  | .unlink => gkfsRemove client path
  | .rmdir => gkfsRmdir client path

/-- The path names a directory. -/
def IsDirectory (deployment : Deployment) (cluster : Cluster) (path : Str) : Prop :=
  ∃ md, entry deployment cluster path = .ok md ∧ Mode.isDir md.mode

/-- The root is there, and every other stored path has a directory above it. -/
structure IsTree (deployment : Deployment) (cluster : Cluster) : Prop where
  root : IsDirectory deployment cluster ['/']
  parent : ∀ host, ∀ path ∈ cluster.mdb host, path ≠ ['/'] → IsDirectory deployment cluster (Path.dirname path)

def HasChild (cluster : Cluster) (path : Str) : Prop :=
  ∃ host, ∃ key ∈ cluster.mdb host, key ≠ ['/'] ∧ Path.dirname key = path

/-- What the code does not check itself. -/
def Call.Harmless (cluster : Cluster) (path : Str) : Call → Prop
  | .open _ _ | .mkdir _ => True
  | .unlink => path ≠ ['/'] ∧ ¬HasChild cluster path
  | .rmdir => path = ['/'] → HasChild cluster path

/-- The states that calls of the given kind lead to, one after the other. Meanwhile any
leading operands of any key may be merged. -/
inductive Reached (deployment : Deployment) (admitted : Cluster → Str → Call → Prop) : Cluster → Prop where
  | fresh : Reached deployment admitted .fresh
  | call {cluster : Cluster} (before : Reached deployment admitted cluster) (client : Client deployment) (pools : Nat → IoPool)
      {path : Str} (canonical : Path.Canonical path) {call : Call} (admits : admitted cluster path call) :
      Reached deployment admitted ((Cluster.server deployment pools).exec (call.run client path) cluster).2
  | collapse {cluster : Cluster} (before : Reached deployment admitted cluster) (host : Nat) (key : Str) (count : Nat) :
      Reached deployment admitted (cluster.setDb host ((cluster.mdb host).collapse .default deployment.ndebug key count))

/-- An entry as these calls make it. -/
def Entry (cell : Cell) : Prop := ∃ md, Holds false Signed cell md ∧ (Mode.isReg md.mode ∨ Mode.isDir md.mode) ∧ md.size = 0

structure Sound (deployment : Deployment) (cluster : Cluster) : Prop where
  canonical : ∀ host, ∀ key ∈ cluster.mdb host, Path.Canonical key
  placed : ∀ host, ∀ key ∈ cluster.mdb host, key ≠ ['/'] → host = deployment.metadataHost key
  cells : ∀ host key cell, (cluster.mdb host).lookup key = some cell → Entry cell

section Steps
variable {deployment : Deployment} {pools : Nat → IoPool} {client : Client deployment} {path : Str}
  {cluster after : Cluster}

theorem mem_iff_lookup {db : MetadataDb} {key : Str} : key ∈ db ↔ ∃ cell, db.lookup key = some cell := by
  rw [← AList.lookup_isSome, Option.isSome_iff_exists]

theorem entry_congr (same : (after.mdb (deployment.metadataHost path)).lookup path =
    (cluster.mdb (deployment.metadataHost path)).lookup path) : entry deployment after path = entry deployment cluster path := by
  rw [entry, entry, MetadataDb.get, MetadataDb.get, MetadataDb.cell, MetadataDb.cell, same]

theorem Sound.entry (sound : Sound deployment cluster) {cell : Cell}
    (found : (cluster.mdb (deployment.metadataHost path)).lookup path = some cell) :
    ∃ md, Holds false Signed cell md ∧ ClientSpec.entry deployment cluster path = .ok md ∧
      (Mode.isReg md.mode ∨ Mode.isDir md.mode) ∧ md.size = 0 := by
  obtain ⟨md, holds, typed, empty⟩ := sound.cells _ _ _ found
  exact ⟨md, holds, entry_of_holds found (holds.release deployment.ndebug), typed, empty⟩

theorem Sound.empty (sound : Sound deployment cluster) {md : Metadata} (found : ClientSpec.entry deployment cluster path = .ok md) :
    md.size = 0 := by
  obtain ⟨cell, stored⟩ := mem_iff_lookup.mp (stored_of_entry found)
  obtain ⟨other, _, same, _, empty⟩ := sound.entry stored
  cases found.symm.trans same
  exact empty

theorem Sound.readable (sound : Sound deployment cluster) (host : Nat) : Readable deployment.ndebug (cluster.mdb host) := by
  intro key stored
  obtain ⟨cell, found⟩ := mem_iff_lookup.mp stored
  obtain ⟨md, holds, _⟩ := sound.cells _ _ _ found
  exact ⟨md, record_of_holds found (holds.release deployment.ndebug)⟩

theorem sound_fresh : Sound deployment .fresh := by
  have only : ∀ host key, key ∈ Cluster.fresh.mdb host → key = ['/'] := by
    intro host key stored
    exact List.mem_singleton.mp stored
  refine ⟨fun host key stored => ?_, fun host key stored other => absurd (only host key stored) other, fun host key cell found => ?_⟩
  · rw [only host key stored]
    exact Path.canonical_root
  · cases only host key (mem_iff_lookup.mpr ⟨cell, found⟩)
    cases found
    exact ⟨_, .created (recorded_ofMode _), .inr rfl, rfl⟩

theorem lookup_created {type : Mode} (created : Created deployment path type cluster after) (host : Nat) (key : Str) :
    (after.mdb host).lookup key = if host = deployment.metadataHost path ∧ key = path then
      some (((cluster.mdb host).cell path).merge (MergeOperand.create ((Metadata.ofMode type).serialize .default)).serialize)
      else (cluster.mdb host).lookup key := by
  rw [created, Cluster.mdb_setDb]
  by_cases here : host = deployment.metadataHost path
  · subst here
    rw [Function.update_self, MetadataDb.lookup_merge]
    simp
  · rw [Function.update_of_ne here, if_neg fun both => here both.1]

/-- A creation gives a new entry, and leaves alone one that is there already. -/
theorem entry_merge_create {cell : Option Cell} (before : ∀ old, cell = some old → Entry old) {type : Mode}
    (typed : Mode.isReg type ∨ Mode.isDir type) :
    Entry ((cell.getD ⟨none, []⟩).merge (MergeOperand.create ((Metadata.ofMode type).serialize .default)).serialize) := by
  cases cell with
  | none => exact ⟨_, .created (recorded_ofMode type), typed, rfl⟩
  | some cell =>
    obtain ⟨md, holds, kept⟩ := before cell rfl
    exact ⟨md, .merge holds rfl holds.recorded.size, kept⟩

theorem Sound.create (sound : Sound deployment cluster) (canonical : Path.Canonical path) {type : Mode}
    (typed : Mode.isReg type ∨ Mode.isDir type) (created : Created deployment path type cluster after) :
    Sound deployment after := by
  have kept : ∀ host key, key ∈ after.mdb host → (host = deployment.metadataHost path ∧ key = path) ∨ key ∈ cluster.mdb host := by
    intro host key stored
    by_cases here : host = deployment.metadataHost path ∧ key = path
    · exact .inl here
    · obtain ⟨cell, found⟩ := mem_iff_lookup.mp stored
      rw [lookup_created created, if_neg here] at found
      exact .inr (mem_iff_lookup.mpr ⟨cell, found⟩)
  refine ⟨fun host key stored => ?_, fun host key stored other => ?_, fun host key cell found => ?_⟩
  · rcases kept host key stored with ⟨_, rfl⟩ | old
    · exact canonical
    · exact sound.canonical host key old
  · rcases kept host key stored with ⟨rfl, rfl⟩ | old
    · rfl
    · exact sound.placed host key old other
  · rw [lookup_created created] at found
    split at found
    next =>
      cases found
      exact entry_merge_create (fun old => sound.cells host path old) typed
    next => exact sound.cells host key cell found

theorem Sound.create_keeps (sound : Sound deployment cluster) {type : Mode} (created : Created deployment path type cluster after)
    {other : Str} (directory : IsDirectory deployment cluster other) : IsDirectory deployment after other := by
  obtain ⟨md, found, typed⟩ := directory
  obtain ⟨cell, stored⟩ := mem_iff_lookup.mp (stored_of_entry found)
  have now := lookup_created created (deployment.metadataHost other) other
  by_cases same : other = path
  · subst same
    obtain ⟨_, holds, again, _⟩ := sound.entry stored
    cases found.symm.trans again
    rw [if_pos ⟨rfl, rfl⟩, MetadataDb.cell_of_lookup stored] at now
    exact ⟨md, entry_of_holds now (.merge (holds.release _) rfl holds.recorded.size), typed⟩
  · rw [if_neg fun both => same both.2] at now
    exact ⟨md, (entry_congr now).trans found, typed⟩

theorem IsTree.create (tree : IsTree deployment cluster) (sound : Sound deployment cluster) {type : Mode}
    (parent : IsDirectory deployment cluster (Path.dirname path)) (created : Created deployment path type cluster after) :
    IsTree deployment after := by
  refine ⟨sound.create_keeps created tree.root, fun host key stored other => sound.create_keeps created ?_⟩
  obtain ⟨cell, found⟩ := mem_iff_lookup.mp stored
  rw [lookup_created created] at found
  split at found
  next new =>
    rw [new.2]
    exact parent
  next => exact tree.parent host key (mem_iff_lookup.mpr ⟨cell, found⟩) other

section Removal
variable {hosts : List Nat}

theorem mem_of_removed (removed : Removed path hosts cluster after) {host : Nat} {key : Str} (stored : key ∈ after.mdb host) :
    key ∈ cluster.mdb host := by
  obtain ⟨cell, found⟩ := mem_iff_lookup.mp stored
  rw [removed] at found
  split at found
  next => cases found
  next => exact mem_iff_lookup.mpr ⟨cell, found⟩

theorem Sound.remove (sound : Sound deployment cluster) (removed : Removed path hosts cluster after) : Sound deployment after := by
  refine ⟨fun host key stored => sound.canonical host key (mem_of_removed removed stored),
    fun host key stored => sound.placed host key (mem_of_removed removed stored), fun host key cell found => ?_⟩
  rw [removed] at found
  split at found
  next => cases found
  next => exact sound.cells host key cell found

theorem IsTree.remove (tree : IsTree deployment cluster) (removed : Removed path hosts cluster after) (notRoot : path ≠ ['/'])
    (childless : ¬HasChild cluster path) : IsTree deployment after := by
  have kept : ∀ {other : Str}, other ≠ path → IsDirectory deployment cluster other → IsDirectory deployment after other := by
    rintro other different ⟨md, found, typed⟩
    refine ⟨md, (entry_congr ?_).trans found, typed⟩
    rw [removed, if_neg fun both => different both.1]
  refine ⟨kept notRoot.symm tree.root, fun host key stored other => kept ?_ ?_⟩
  · exact fun same => childless ⟨host, key, mem_of_removed removed stored, other, same⟩
  · exact tree.parent host key (mem_of_removed removed stored) other

theorem not_isDirectory_of_removed (removed : Removed path hosts cluster after) (here : deployment.metadataHost path ∈ hosts) :
    ¬IsDirectory deployment after path := by
  rintro ⟨md, found, _⟩
  rw [entry_of_lookup_none (by rw [removed, if_pos ⟨rfl, here⟩])] at found
  cases found

theorem dirname_ne_self {key : Str} (canonical : Path.Canonical key) (notRoot : key ≠ ['/']) : Path.dirname key ≠ key := by
  obtain ⟨name, valid, same⟩ := eq_childPath canonical notRoot
  intro fixed
  rw [fixed] at same
  exact childPath_ne_self valid.nonempty same.symm

/-- Removing the root or a path with something below it breaks the tree. -/
theorem not_isTree_of_removed (sound : Sound deployment cluster) (removed : Removed path hosts cluster after)
    (here : deployment.metadataHost path ∈ hosts) (harmful : path = ['/'] ∨ HasChild cluster path) : ¬IsTree deployment after := by
  intro tree
  rcases harmful with rfl | ⟨host, key, stored, notRoot, rfl⟩
  · exact not_isDirectory_of_removed removed here tree.root
  · have remains : key ∈ after.mdb host := by
      obtain ⟨cell, found⟩ := mem_iff_lookup.mp stored
      refine mem_iff_lookup.mpr ⟨cell, ?_⟩
      rw [removed, if_neg fun both => dirname_ne_self (sound.canonical host key stored) notRoot both.1.symm, found]
    exact not_isDirectory_of_removed removed here (tree.parent host key remains notRoot)

end Removal

section Merging
variable (host : Nat) (key : Str) (count : Nat)

theorem lookup_collapsed (other : Nat) (path : Str) :
    ((cluster.setDb host ((cluster.mdb host).collapse .default deployment.ndebug key count)).mdb other).lookup path =
      if other = host ∧ path = key then ((cluster.mdb other).lookup path).map (Cell.collapse .default deployment.ndebug count)
      else (cluster.mdb other).lookup path := by
  rw [Cluster.mdb_setDb]
  by_cases here : other = host
  · subst here
    rw [Function.update_self, MetadataDb.lookup_collapse]
    by_cases same : path = key
    · subst same
      simp
    · simp [same]
  · rw [Function.update_of_ne here, if_neg fun both => here both.1]

/-- Every key keeps a cell with the same meaning. -/
theorem Sound.lookup_collapsed (sound : Sound deployment cluster) {other : Nat} {path : Str} {cell : Cell}
    (found : ((cluster.setDb host ((cluster.mdb host).collapse .default deployment.ndebug key count)).mdb other).lookup path =
      some cell) :
    ∃ old md, (cluster.mdb other).lookup path = some old ∧ Holds false Signed old md ∧ Holds false Signed cell md ∧
      (Mode.isReg md.mode ∨ Mode.isDir md.mode) ∧ md.size = 0 := by
  rw [NamespaceTree.lookup_collapsed] at found
  split at found
  next =>
    obtain ⟨old, stored, rfl⟩ := Option.map_eq_some_iff.mp found
    obtain ⟨md, holds, kept⟩ := sound.cells other path old stored
    exact ⟨old, md, stored, holds, holds.collapse deployment.ndebug count, kept⟩
  next =>
    obtain ⟨md, holds, kept⟩ := sound.cells other path cell found
    exact ⟨cell, md, found, holds, holds, kept⟩

theorem Sound.collapse (sound : Sound deployment cluster) :
    Sound deployment (cluster.setDb host ((cluster.mdb host).collapse .default deployment.ndebug key count)) := by
  have before : ∀ {other path}, path ∈
      (cluster.setDb host ((cluster.mdb host).collapse .default deployment.ndebug key count)).mdb other → path ∈ cluster.mdb other := by
    intro other path stored
    obtain ⟨cell, found⟩ := mem_iff_lookup.mp stored
    obtain ⟨old, _, there, _⟩ := sound.lookup_collapsed host key count found
    exact mem_iff_lookup.mpr ⟨old, there⟩
  refine ⟨fun other path stored => sound.canonical other path (before stored),
    fun other path stored => sound.placed other path (before stored), fun other path cell found => ?_⟩
  obtain ⟨_, md, _, _, holds, kept⟩ := sound.lookup_collapsed host key count found
  exact ⟨md, holds, kept⟩

theorem Sound.collapse_keeps (sound : Sound deployment cluster) {path : Str} (directory : IsDirectory deployment cluster path) :
    IsDirectory deployment (cluster.setDb host ((cluster.mdb host).collapse .default deployment.ndebug key count)) path := by
  obtain ⟨md, found, typed⟩ := directory
  obtain ⟨cell, stored⟩ := mem_iff_lookup.mp (stored_of_entry found)
  have remains : ∃ cell, ((cluster.setDb host ((cluster.mdb host).collapse .default deployment.ndebug key count)).mdb
      (deployment.metadataHost path)).lookup path = some cell := by
    rw [NamespaceTree.lookup_collapsed, stored]
    split
    next => exact ⟨_, rfl⟩
    next => exact ⟨_, rfl⟩
  obtain ⟨now, there⟩ := remains
  obtain ⟨old, same, was, holds, again, _⟩ := sound.lookup_collapsed host key count there
  cases found.symm.trans (entry_of_holds was (holds.release deployment.ndebug))
  exact ⟨md, entry_of_holds there (again.release deployment.ndebug), typed⟩

theorem IsTree.collapse (tree : IsTree deployment cluster) (sound : Sound deployment cluster) :
    IsTree deployment (cluster.setDb host ((cluster.mdb host).collapse .default deployment.ndebug key count)) := by
  refine ⟨sound.collapse_keeps host key count tree.root, fun other path stored notRoot => sound.collapse_keeps host key count ?_⟩
  obtain ⟨cell, found⟩ := mem_iff_lookup.mp stored
  obtain ⟨old, _, there, _⟩ := sound.lookup_collapsed host key count found
  exact tree.parent other path (mem_iff_lookup.mpr ⟨old, there⟩) notRoot

end Merging

/-! The daemons go on serving while names come and go. -/

/-- Every daemon serves, and every entry is one that these calls make. -/
structure Serving (cluster : Cluster) : Prop where
  up : cluster.Up
  cells : ∀ host key cell, (cluster.mdb host).lookup key = some cell → Entry cell

/-- Requests about names that their handler answers. In a debug build the removal of the root
is none of them. -/
def Names (deployment : Deployment) (β : Type) (_ : Nat) : Request β → Prop
  | .create path mode => Path.Canonical path ∧ (Mode.isReg mode ∨ Mode.isDir mode)
  | .remove path => Path.Canonical path ∧ (path = ['/'] → deployment.ndebug = true)
  | .getDirents path _ => Path.Canonical path
  | .stat _ => True
  | _ => False

theorem Serving.readable (serving : Serving cluster) (ndebug : Bool) (host : Nat) : Readable ndebug (cluster.mdb host) := by
  intro key stored
  obtain ⟨cell, found⟩ := mem_iff_lookup.mp stored
  obtain ⟨md, holds, _⟩ := serving.cells _ _ _ found
  exact ⟨md, record_of_holds found (holds.release ndebug)⟩

theorem rpcSrvRemove_canonical {ndebug : Bool} (canonical : Path.Canonical path) (allowed : path = ['/'] → ndebug = true)
    (db : MetadataDb) (storage : Storage) :
    ∃ cleared, Daemon.rpcSrvRemove ndebug path db storage = (some 0, db.remove path, cleared) := by
  rw [Daemon.rpcSrvRemove, ChunkStorage.destroyChunkSpace]
  by_cases root : path = ['/']
  · rw [root, StorageSpec.chunkDir_root, if_pos (allowed root)]
    exact ⟨_, rfl⟩
  · rw [StorageSpec.chunkDir_absolute canonical.isAbsolute root]
    exact ⟨_, rfl⟩

theorem Serving.handle (serving : Serving cluster) {β : Type} {host : Nat} {request : Request β}
    (names : Names deployment β host request) : Serving (Cluster.handle deployment pools host request cluster).2 := by
  cases request with
  | stat path =>
    have answered : (Daemon.rpcSrvStat deployment.ndebug path (cluster.mdb host)).isSome := by
      apply isSome_rpcSrvStat
      cases found : (cluster.mdb host).lookup path with
      | none =>
        rw [MetadataDb.get_of_lookup_none found]
        rintro ⟨⟩
      | some cell =>
        obtain ⟨md, holds, _⟩ := serving.cells _ _ _ found
        rw [MetadataDb.get, MetadataDb.cell_of_lookup found, (holds.release _).value]
        rintro ⟨⟩
    rw [Cluster.handle_of_isSome (serving.up host) (by rw [Cluster.serve]; exact answered)]
    exact serving
  | create path mode =>
    obtain ⟨canonical, typed⟩ := names
    rw [Cluster.handle_of_some (serving.up host) (by rw [Cluster.serve, rpcSrvCreate_ok _ canonical typed])]
    refine ⟨serving.up, fun other key cell found => ?_⟩
    rw [Cluster.mdb_setDb] at found
    by_cases here : other = host
    · subst here
      rw [Function.update_self, MetadataDb.lookup_merge] at found
      split at found
      next =>
        cases found
        exact entry_merge_create (fun old => serving.cells other path old) typed
      next => exact serving.cells other key cell found
    · rw [Function.update_of_ne here] at found
      exact serving.cells other key cell found
  | remove path =>
    obtain ⟨cleared, answered⟩ := rpcSrvRemove_canonical names.1 names.2 (cluster.mdb host) (cluster.storage (deployment.backend host))
    rw [Cluster.handle_of_some (serving.up host) (by rw [Cluster.serve, answered])]
    refine ⟨serving.up, fun other key cell found => ?_⟩
    rw [Cluster.mdb_setStore, Cluster.mdb_setDb] at found
    by_cases here : other = host
    · subst here
      rw [Function.update_self, MetadataDb.lookup_remove] at found
      split at found
      next => cases found
      next => exact serving.cells other key cell found
    · rw [Function.update_of_ne here] at found
      exact serving.cells other key cell found
  | getDirents path bulkSize =>
    have answered := isSome_rpcSrvGetDirents names.isAbsolute (serving.readable deployment.ndebug host) bulkSize
    rw [Cluster.handle_of_isSome (serving.up host) (by rw [Cluster.serve]; exact answered)]
    exact serving
  | _ => exact names.elim

theorem Serving.exec (serving : Serving cluster) {α : Type} {program : Prog α} (posts : Posts (Names deployment) program) :
    Serving ((Cluster.server deployment pools).exec program cluster).2 :=
  posts.exec_keeps (fun _ _ names _ before => before.handle names) serving

theorem entryRequests_names (canonical : Path.Canonical path) : EntryRequests (Names deployment) client path :=
  ⟨trivial, trivial, fun _ typed => ⟨canonical, typed⟩, fun _ _ => canonical⟩

theorem Serving.exec_getMetadata (serving : Serving cluster) :
    (∃ md, entry deployment cluster path = .ok md ∧
        (Cluster.server deployment pools).exec (getMetadata client path false) cluster = (some (.ok md), cluster)) ∨
      (Cluster.server deployment pools).exec (getMetadata client path false) cluster = (some (.error Errno.enoent), cluster) := by
  cases found : (cluster.mdb (deployment.metadataHost path)).lookup path with
  | some cell =>
    obtain ⟨md, holds, _⟩ := serving.cells _ _ _ found
    have read := entry_of_holds found (holds.release deployment.ndebug)
    exact .inl ⟨md, read, exec_getMetadata_ok serving.up read rfl⟩
  | none =>
    have missing : (cluster.mdb (deployment.metadataHost path)).get .default deployment.ndebug path = .error .notFound :=
      MetadataDb.get_of_lookup_none found
    right
    rw [getMetadata, Program.bind_eq, Server.exec_bind, serves_forwardStat serving.up (by rw [missing]; rintro ⟨⟩), missing]
    rfl

/-- An open truncates nothing that has a size. -/
theorem Serving.open (serving : Serving cluster) (canonical : Path.Canonical path)
    (empty : ∀ md, entry deployment cluster path = .ok md → md.size = 0) (mode : Mode) (flags : OpenFlags) :
    Serving ((Cluster.server deployment pools).exec (gkfsOpen client path mode flags) cluster).2 := by
  have requests : EntryRequests (Names deployment) client path := entryRequests_names canonical
  rw [gkfsOpen]
  split
  next => exact serving
  next =>
  split
  next => exact serving
  next =>
  rw [Program.bind_eq, Server.exec_bind]
  rcases serving.exec_getMetadata with ⟨md, found, asked⟩ | asked
  · rw [asked]
    dsimp only
    split
    next => exact serving
    next =>
    split
    next => exact serving
    next =>
    split
    next => exact serving.exec ((posts_gkfsOpendir requests.stat requests.getDirents).bind fun _ => trivial)
    next =>
    rw [empty md found]
    refine serving.exec ((posts_assertClient _).bind fun _ => ?_)
    split
    next => exact (posts_assertClient _).bind fun _ => (posts_assertClient _).bind fun _ => by rw [if_pos rfl]; trivial
    next => trivial
  · rw [asked]
    dsimp only
    split
    next => exact serving
    next =>
    split
    next => exact serving
    next =>
    split
    next => exact serving
    next => exact serving.exec (posts_gkfsCreate requests _)

/-! What the calls do, whether they return or end the process. -/

theorem effect_create (serving : Serving cluster) (canonical : Path.Canonical path) {mode : Mode} :
    ((Cluster.server deployment pools).exec (gkfsCreate client path mode) cluster).2 = cluster ∨
      ∃ type, (Mode.isReg type ∨ Mode.isDir type) ∧ IsDirectory deployment cluster (Path.dirname path) ∧
        Created deployment path type cluster ((Cluster.server deployment pools).exec (gkfsCreate client path mode) cluster).2 := by
  rw [Cluster.exec_of_up (serving.exec (posts_gkfsCreate (entryRequests_names canonical) mode)).up]
  cases ran : (Cluster.serving deployment pools).exec (gkfsCreate client path mode) cluster with
  | mk result after =>
    cases result with
    | none => exact .inl (aborted_gkfsCreate ran)
    | some result =>
      rcases exec_gkfsCreate ran with ⟨_, type, parent, typed, found, directory, created⟩ | ⟨_, same⟩
      · exact .inr ⟨type, (nodeMode_ok typed).imp And.left And.left, ⟨parent, found, directory⟩, created⟩
      · exact .inl same

theorem effect_open (serving : Serving cluster) (sound : Sound deployment cluster) (canonical : Path.Canonical path) {mode : Mode}
    {flags : OpenFlags} :
    ((Cluster.server deployment pools).exec (gkfsOpen client path mode flags) cluster).2 = cluster ∨
      ∃ type, (Mode.isReg type ∨ Mode.isDir type) ∧ IsDirectory deployment cluster (Path.dirname path) ∧
        Created deployment path type cluster ((Cluster.server deployment pools).exec (gkfsOpen client path mode flags) cluster).2 := by
  have empty : ∀ md, entry deployment cluster path = .ok md → md.size = 0 := fun md found => sound.empty found
  rw [Cluster.exec_of_up (serving.open canonical empty mode flags).up]
  cases ran : (Cluster.serving deployment pools).exec (gkfsOpen client path mode flags) cluster with
  | mk result after =>
    cases result with
    | none => exact .inl (aborted_gkfsOpen empty ran)
    | some result =>
      rcases exec_gkfsOpen ran with ⟨same, _⟩ | ⟨_, created⟩ | ⟨md, found, _, _, truncated⟩
      · exact .inl same
      · have effect := @effect_create deployment pools client path cluster serving canonical (mode ||| Mode.ifreg)
        rw [Cluster.exec_of_up (serving.exec (posts_gkfsCreate (entryRequests_names canonical) _)).up] at effect
        rwa [created] at effect
      · rw [empty md found] at truncated
        rcases exec_gkfsTruncateTo_mdb truncated with ⟨_, _, same⟩ | ⟨different, _⟩
        · exact .inl same
        · exact absurd rfl different

/-- An unlink of something removes it. -/
theorem effect_unlink (up : cluster.Up) {md : Metadata} (found : entry deployment cluster path = .ok md) :
    ∃ hosts, deployment.metadataHost path ∈ hosts ∧
      Removed path hosts cluster ((Cluster.server deployment pools).exec (gkfsRemove client path) cluster).2 := by
  rw [gkfsRemove, Program.bind_eq, Server.exec_bind, exec_getMetadata_ok up found rfl]
  exact ⟨_, metadataHost_mem_removeTargets client path _ _, removed_handleAll path _ up⟩

theorem effect_unlink_missing (serving : Serving cluster) (missing : ∀ md, entry deployment cluster path ≠ .ok md) :
    ((Cluster.server deployment pools).exec (gkfsRemove client path) cluster).2 = cluster := by
  rw [gkfsRemove, Program.bind_eq, Server.exec_bind]
  rcases serving.exec_getMetadata with ⟨md, found, _⟩ | asked
  · exact absurd found (missing md)
  · rw [asked]
    rfl

/-- Hosts that list nothing have nothing below the path. -/
theorem Sound.childless (sound : Sound deployment cluster) (canonical : Path.Canonical path)
    (empty : ∀ host < deployment.hosts, (cluster.mdb host).getDirents .default deployment.ndebug path = .ok []) :
    ¬HasChild cluster path := by
  rintro ⟨host, key, stored, notRoot, rfl⟩
  obtain ⟨name, valid, same⟩ := eq_childPath (sound.canonical host key stored) notRoot
  have known : host < deployment.hosts := by
    rw [sound.placed host key stored notRoot]
    exact Nat.mod_lt _ deployment.hosts_pos
  have listed := empty host known
  rw [getDirents_eq canonical.isAbsolute (sound.readable host)] at listed
  have member := @mem_children deployment.ndebug (cluster.mdb host) (Path.dirname key) name _ |>.mpr
    ⟨⟨valid.nonempty, valid.plain⟩, by rwa [rootPath_append canonical.isAbsolute canonical.hasTrailingSlash, ← same], rfl⟩
  rw [Except.ok.inj listed] at member
  cases member

/-- A directory is removed only when no host has listed an entry. -/
theorem effect_rmdir (serving : Serving cluster) (sound : Sound deployment cluster) (canonical : Path.Canonical path) :
    ((Cluster.server deployment pools).exec (gkfsRmdir client path) cluster).2 = cluster ∨
      ¬HasChild cluster path ∧ Removed path [deployment.metadataHost path] cluster
        ((Cluster.server deployment pools).exec (gkfsRmdir client path) cluster).2 := by
  rw [gkfsRmdir, Program.bind_eq, Server.exec_bind]
  rcases serving.exec_getMetadata with ⟨md, found, asked⟩ | asked
  · rw [asked]
    dsimp only
    split
    next => exact .inl rfl
    next =>
      rw [Program.bind_eq, Server.exec_bind, serves_forwardGetDirents serving.up fun host _ =>
        isSome_rpcSrvGetDirents canonical.isAbsolute (serving.readable _ host) _]
      cases received : (List.range deployment.hosts).mapM (hostDirents deployment cluster path) with
      | none => exact .inl rfl
      | some entries =>
        dsimp only [Option.map_some]
        split
        next => exact .inl rfl
        next empty =>
          rw [ne_eq, List.length_eq_zero_iff, not_not, List.flatten_eq_nil_iff] at empty
          refine .inr ⟨sound.childless canonical fun host known => ?_, ?_⟩
          · obtain ⟨answer, member, received⟩ := MapM.mem_of_mapM_eq_some received (List.mem_range.mpr known)
            rw [empty answer member] at received
            exact getDirents_of_hostDirents_nil received
          · rw [forwardRemove, removeTargets_only]
            exact removed_handleAll path _ serving.up
  · rw [asked]
    exact .inl rfl

theorem hostDirents_of_childless (sound : Sound deployment cluster) (childless : ¬HasChild cluster ['/']) (host : Nat) :
    hostDirents deployment cluster ['/'] host = some [] := by
  have none_listed : children deployment.ndebug (cluster.mdb host) ['/'] = [] := by
    rw [List.eq_nil_iff_forall_not_mem]
    rintro ⟨name, flag⟩ member
    obtain ⟨⟨nonempty, plain⟩, stored, _⟩ := mem_children.mp member
    exact childless ⟨host, '/' :: name, stored, fun same => nonempty (List.cons.inj same).2, Path.dirname_top plain⟩
  rw [hostDirents, Daemon.rpcSrvGetDirents, getDirents_eq rfl (sound.readable host), none_listed]
  rfl

/-- An empty root is removed like any other directory. -/
theorem effect_rmdir_root (serving : Serving cluster) (sound : Sound deployment cluster) (root : IsDirectory deployment cluster ['/'])
    (childless : ¬HasChild cluster ['/']) : Removed ['/'] [deployment.metadataHost ['/']] cluster
      ((Cluster.server deployment pools).exec (gkfsRmdir client ['/']) cluster).2 := by
  obtain ⟨md, found, directory⟩ := root
  have received : (List.range deployment.hosts).mapM (hostDirents deployment cluster ['/']) =
      some ((List.range deployment.hosts).map fun _ => []) :=
    MapM.mapM_eq_pure_map fun host _ => hostDirents_of_childless sound childless host
  have empty : ((List.range deployment.hosts).map fun _ => ([] : List (Str × Bool))).flatten = [] := by simp
  have listed : (Cluster.server deployment pools).exec (forwardGetDirents client ['/']) cluster = (some [], cluster) := by
    rw [serves_forwardGetDirents serving.up fun host _ =>
      isSome_rpcSrvGetDirents Path.canonical_root.isAbsolute (serving.readable _ host) _, received, Option.map_some, empty]
  rw [gkfsRmdir, Program.bind_eq, Server.exec_bind, exec_getMetadata_ok serving.up found rfl]
  simp only [directory, Bool.not_true, Bool.false_eq_true, if_false, Program.bind_eq, Server.exec_bind, listed, List.length_nil,
    ne_eq, not_true_eq_false]
  rw [forwardRemove, removeTargets_only]
  exact removed_handleAll ['/'] _ serving.up

theorem Sound.call (sound : Sound deployment cluster) (serving : Serving cluster) (canonical : Path.Canonical path) (call : Call) :
    Sound deployment ((Cluster.server deployment pools).exec (call.run client path) cluster).2 := by
  cases call with
  | «open» mode flags =>
    rcases effect_open serving sound canonical with same | ⟨type, typed, _, created⟩
    · exact same.symm ▸ sound
    · exact sound.create canonical typed created
  | mkdir mode =>
    rcases effect_create serving canonical with same | ⟨type, typed, _, created⟩
    · exact same.symm ▸ sound
    · exact sound.create canonical typed created
  | unlink =>
    by_cases missing : ∀ md, ClientSpec.entry deployment cluster path ≠ .ok md
    · exact (effect_unlink_missing serving missing).symm ▸ sound
    · obtain ⟨md, found⟩ := not_forall_not.mp missing
      obtain ⟨hosts, _, removed⟩ := effect_unlink serving.up found
      exact sound.remove removed
  | rmdir =>
    rcases effect_rmdir serving sound canonical with same | ⟨_, removed⟩
    · exact same.symm ▸ sound
    · exact sound.remove removed

/-- A harmless call ends no daemon. -/
theorem Serving.call (serving : Serving cluster) (sound : Sound deployment cluster) (canonical : Path.Canonical path) {call : Call}
    (harmless : call.Harmless cluster path) : Serving ((Cluster.server deployment pools).exec (call.run client path) cluster).2 := by
  have requests : EntryRequests (Names deployment) client path := entryRequests_names canonical
  cases call with
  | «open» mode flags => exact serving.open canonical (fun md found => sound.empty found) mode flags
  | mkdir mode => exact serving.exec (posts_gkfsCreate requests _)
  | unlink => exact serving.exec (posts_gkfsRemove requests fun _ => ⟨canonical, fun root => absurd root harmless.1⟩)
  | rmdir =>
    by_cases root : path = ['/']
    · rcases effect_rmdir serving sound canonical with same | ⟨childless, _⟩
      · exact same.symm ▸ serving
      · exact absurd (harmless root) childless
    · exact serving.exec (posts_gkfsRmdir requests fun _ => ⟨canonical, fun top => absurd top root⟩)

/-- A call on a tree leaves a tree exactly when it is harmless. -/
theorem IsTree.call_iff (tree : IsTree deployment cluster) (serving : Serving cluster) (sound : Sound deployment cluster)
    (canonical : Path.Canonical path) (call : Call) :
    IsTree deployment ((Cluster.server deployment pools).exec (call.run client path) cluster).2 ↔ call.Harmless cluster path := by
  cases call with
  | «open» mode flags =>
    refine iff_of_true ?_ trivial
    rcases effect_open serving sound canonical with same | ⟨type, _, parent, created⟩
    · exact same.symm ▸ tree
    · exact tree.create sound parent created
  | mkdir mode =>
    refine iff_of_true ?_ trivial
    rcases effect_create serving canonical with same | ⟨type, _, parent, created⟩
    · exact same.symm ▸ tree
    · exact tree.create sound parent created
  | unlink =>
    by_cases missing : ∀ md, entry deployment cluster path ≠ .ok md
    · refine iff_of_true ((effect_unlink_missing serving missing).symm ▸ tree) ⟨?_, ?_⟩
      · rintro rfl
        obtain ⟨md, found, _⟩ := tree.root
        exact missing md found
      · rintro ⟨host, key, stored, notRoot, rfl⟩
        obtain ⟨md, found, _⟩ := tree.parent host key stored notRoot
        exact missing md found
    · obtain ⟨md, found⟩ := not_forall_not.mp missing
      obtain ⟨hosts, here, removed⟩ := effect_unlink serving.up found
      constructor
      · intro remains
        constructor
        · exact fun root => not_isTree_of_removed sound removed here (.inl root) remains
        · exact fun child => not_isTree_of_removed sound removed here (.inr child) remains
      · exact fun harmless => tree.remove removed harmless.1 harmless.2
  | rmdir =>
    constructor
    · rintro remains rfl
      by_contra childless
      have removed := @effect_rmdir_root deployment pools client cluster serving sound tree.root childless
      exact not_isTree_of_removed sound removed (List.mem_singleton_self _) (.inl rfl) remains
    · intro harmless
      rcases effect_rmdir serving sound canonical with same | ⟨childless, removed⟩
      · exact same.symm ▸ tree
      · exact tree.remove removed (fun root => childless (harmless root)) childless

theorem isTree_fresh : IsTree deployment .fresh := by
  refine ⟨⟨_, entry_of_holds rfl (.created (recorded_ofMode _)), rfl⟩, fun host path stored notRoot => ?_⟩
  exact absurd (List.mem_singleton.mp stored) notRoot

theorem Reached.invariant (reached : Reached deployment (fun cluster path call => call.Harmless cluster path) cluster) :
    cluster.Up ∧ Sound deployment cluster ∧ IsTree deployment cluster := by
  induction reached with
  | fresh => exact ⟨Cluster.up_fresh, sound_fresh, isTree_fresh⟩
  | call _ client pools canonical admits ih =>
    obtain ⟨up, sound, tree⟩ := ih
    have serving : Serving _ := ⟨up, sound.cells⟩
    exact ⟨(serving.call sound canonical admits).up, sound.call serving canonical _,
      (tree.call_iff serving sound canonical _).mpr admits⟩
  | collapse _ host key count ih =>
    obtain ⟨up, sound, tree⟩ := ih
    exact ⟨up, sound.collapse host key count, tree.collapse host key count sound⟩

end Steps

/-- As long as nothing removes the root or a path with something below it the stored
paths form a tree, and the first such removal breaks it. -/
theorem tree_iff_harmless_calls {deployment : Deployment} {cluster : Cluster}
    (reached : Reached deployment (fun cluster path call => call.Harmless cluster path) cluster) :
    IsTree deployment cluster ∧ ∀ (client : Client deployment) (pools : Nat → IoPool) (path : Str) (call : Call), Path.Canonical path →
      (IsTree deployment ((Cluster.server deployment pools).exec (call.run client path) cluster).2 ↔ call.Harmless cluster path) := by
  obtain ⟨up, sound, tree⟩ := reached.invariant
  exact ⟨tree, fun client pools path call canonical => tree.call_iff ⟨up, sound.cells⟩ sound canonical call⟩

/-- A directory is made and a file is created in it. -/
private def furnished : Cluster :=
  let server := Cluster.server (.pair List.length) default
  let client := Client.first (.pair List.length)
  let made := (server.exec (Call.run client "/d".toList (.mkdir 0o755)) .fresh).2
  (server.exec (Call.run client "/d/f".toList (.open 0o644 { oCreat := true })) made).2

private theorem reached_furnished {admitted : Cluster → Str → Call → Prop} (made : ∀ cluster path mode, admitted cluster path (.mkdir mode))
    (opened : ∀ cluster path mode flags, admitted cluster path (.open mode flags)) : Reached (.pair List.length) admitted furnished := by
  have directory : Path.Canonical "/d".toList := ⟨["d".toList], by decide, rfl⟩
  have file : Path.Canonical "/d/f".toList := ⟨["d".toList, "f".toList], by decide, rfl⟩
  exact (Reached.fresh.call (.first _) default directory (made _ _ 0o755)).call (.first _) default file
    (opened _ _ 0o644 { oCreat := true })

/-- Unlinking the directory takes the parent of the file away. -/
theorem unlink_orphans : ∃ cluster, Reached (.pair List.length) (fun _ _ _ => True) cluster ∧ ¬IsTree (.pair List.length) cluster := by
  have directory : Path.Canonical "/d".toList := ⟨["d".toList], by decide, rfl⟩
  have reached : Reached (.pair List.length) (fun _ _ _ => True) furnished :=
    reached_furnished (fun _ _ _ => trivial) fun _ _ _ _ => trivial
  refine ⟨_, @Reached.call _ _ _ reached (.first _) default _ directory .unlink trivial, fun tree => ?_⟩
  obtain ⟨md, found, _⟩ := tree.parent 0 "/d/f".toList (by decide +kernel) (by decide)
  have missing : entry (.pair List.length) ((Cluster.server (.pair List.length) default).exec
      (Call.run (.first (.pair List.length)) "/d".toList .unlink) furnished).2 (Path.dirname "/d/f".toList) = .error .notFound := rfl
  cases missing.symm.trans found

theorem tree_iff_harmless_calls_file : "/d/f".toList ∈ furnished.mdb 0 ∧ IsTree (.pair List.length) furnished :=
  ⟨by decide +kernel, (tree_iff_harmless_calls (reached_furnished (fun _ _ _ => trivial) fun _ _ _ _ => trivial)).1⟩

end GekkoFwd.Proofs.NamespaceTree
