import GekkoFwd.Proofs.ClientRequests
import GekkoFwd.Proofs.SubtreeParts

/-! Clients that work in different directories do not notice each other, whatever the
order in which their requests reach the hosts, as long as none of them ends a daemon. -/

namespace GekkoFwd.Proofs.SubtreeIsolation
open RpcProgram ClientOps KeyPart StorageSpec SubtreeParts ClientRequests

/-! What belongs to a directory. -/

/-- A path below the directory. -/
structure Inside (dir path : Str) : Prop where
  file : IsFilePath path
  below : dir ++ ['/'] <+: path

def ownsKey (dir key : Str) : Bool := key == dir || (dir ++ ['/']).isPrefixOf key

/-- The chunk directories of the paths below a directory. -/
def ownsName (dir name : Str) : Bool := (dirName dir ++ [':']).isPrefixOf name

def ownsPath (dir : Str) : List Str → Bool
  | [] => true
  | name :: _ => ownsName dir name

/-- The part of the databases and the stores that belongs to a directory. -/
def seen (dir : Str) (cluster : Cluster) : Cluster where
  mdb host := part (ownsKey dir) (cluster.mdb host)
  storage backend := part (ownsPath dir) (cluster.storage backend)
  down _ := false

/-- Neither directory lies below the other, nor do their chunk directories when the
separators have become colons. -/
structure Apart (dir other : Str) : Prop where
  left : ¬dirName dir ++ [':'] <+: dirName other ++ [':']
  right : ¬dirName other ++ [':'] <+: dirName dir ++ [':']

theorem Apart.symm {dir other : Str} (apart : Apart dir other) : Apart other dir := ⟨apart.right, apart.left⟩

section Places
variable {dir path : Str}

theorem dirName_below (dirFile : IsFilePath dir) (below : dir ++ ['/'] <+: path) : dirName dir ++ [':'] <+: dirName path := by
  obtain ⟨rest, rfl⟩ := below
  cases dir with
  | nil => cases dirFile.canonical.isAbsolute
  | cons first dir => exact ⟨rest.map fun c => if c = '/' then ':' else c, by simp [dirName]⟩

theorem Inside.ownsKey (inside : Inside dir path) : SubtreeIsolation.ownsKey dir path = true := by
  rw [SubtreeIsolation.ownsKey, List.isPrefixOf_iff_prefix.mpr inside.below, Bool.or_true]

theorem Inside.ownsName (dirFile : IsFilePath dir) (inside : Inside dir path) : SubtreeIsolation.ownsName dir (dirName path) = true :=
  List.isPrefixOf_iff_prefix.mpr (dirName_below dirFile inside.below)

private theorem below_parent {parent name : Str} (plain : '/' ∉ name) (below : dir ++ ['/'] <+: parent ++ '/' :: name) :
    dir = parent ∨ dir ++ ['/'] <+: parent := by
  obtain ⟨rest, same⟩ := below
  rw [List.append_assoc, List.singleton_append, List.append_eq_append_iff] at same
  obtain ⟨more, longer, tail⟩ | ⟨more, longer, tail⟩ := same
  · cases more with
    | nil => exact .inl (by simpa using longer.symm)
    | cons first more =>
      obtain ⟨rfl, _⟩ := List.cons.inj tail
      exact .inr ⟨more, by simp [longer]⟩
  · cases more with
    | nil => exact .inl (by simpa using longer)
    | cons first more =>
      obtain ⟨rfl, inName⟩ := List.cons.inj tail
      exact absurd (by simp [inName]) plain

/-- The parent of a path below the directory is the directory or lies below it too. -/
theorem Inside.dirname (dirFile : IsFilePath dir) (inside : Inside dir path) : Path.dirname path = dir ∨
    Inside dir (Path.dirname path) := by
  obtain ⟨names, name, valid, last, rfl⟩ := inside.file.canonical.cases.resolve_left inside.file.notRoot
  have below := inside.below
  rw [Path.join_concat] at below
  rw [Path.dirname_join_concat names last]
  by_cases top : names = []
  · rw [if_pos top] at below
    rcases below_parent last.plain below with rfl | longer
    · cases dirFile.canonical.isAbsolute
    · simp at longer
  · rw [if_neg top] at below
    rcases below_parent last.plain below with rfl | longer
    · exact .inl rfl
    · exact .inr ⟨⟨⟨names, valid, rfl⟩, mt (Path.join_eq_root valid).mp top⟩, longer⟩

theorem Apart.not_ownsName {other : Str} (apart : Apart dir other) (dirFile : IsFilePath dir) (inside : Inside dir path) :
    ownsName other (dirName path) = false := by
  rw [Bool.eq_false_iff, ne_eq, ownsName, List.isPrefixOf_iff_prefix]
  intro shared
  rcases List.prefix_or_prefix_of_prefix (dirName_below dirFile inside.below) shared with longer | longer
  · exact apart.left longer
  · exact apart.right longer

theorem Apart.not_ownsKey {other : Str} (apart : Apart dir other) (dirFile : IsFilePath dir) (otherFile : IsFilePath other)
    (inside : Inside dir path) : ownsKey other path = false := by
  have mine := dirName_below dirFile inside.below
  rw [ownsKey, Bool.or_eq_false_iff]
  constructor
  · rw [beq_eq_false_iff_ne]
    rintro rfl
    exact apart.left (mine.trans (List.prefix_append _ _))
  · rw [Bool.eq_false_iff, ne_eq, List.isPrefixOf_iff_prefix]
    intro below
    rcases List.prefix_or_prefix_of_prefix mine (dirName_below otherFile below) with longer | longer
    · exact apart.left longer
    · exact apart.right longer

end Places

/-! The requests about a directory. -/

/-- The directory's own entry is only read. -/
def Own (dir : Str) (β : Type) (_ : Nat) : Request β → Prop
  | .stat path | .getMetadentrySize path | .getDirents path _ => path = dir ∨ Inside dir path
  | .create path _ | .decrSize path _ | .updateMetadentrySize path _ _ _ | .remove path | .truncData path _ => Inside dir path
  | .writeData input _ | .readData input => Inside dir input.path

/-- An operation that works on the part of the directory, and leaves the parts of directories
apart from it as they are. -/
structure Keeps {γ : Type} (dir : Str) (op : Cluster → γ × Cluster) : Prop where
  inside : ∀ cluster, op (seen dir cluster) = ((op cluster).1, seen dir (op cluster).2)
  outside : ∀ {other}, IsFilePath other → Apart dir other → ∀ cluster, seen other (op cluster).2 = seen other cluster

section Requests
variable {deployment : Deployment} {γ δ : Type} {dir path : Str} (host : Nat)

theorem seen_setDb (dir : Str) (cluster : Cluster) (db : MetadataDb) :
    seen dir (cluster.setDb host db) = (seen dir cluster).setDb host (part (ownsKey dir) db) := by
  simp only [seen, Cluster.setDb]
  congr 1
  funext other
  by_cases same : other = host
  · subst same
    simp
  · simp [same]

theorem seen_setStore (dir : Str) (cluster : Cluster) (store : Storage) :
    seen dir (cluster.setStore host store) = (seen dir cluster).setStore host (part (ownsPath dir) store) := by
  simp only [seen, Cluster.setStore]
  congr 1
  funext other
  by_cases same : other = host
  · subst same
    simp
  · simp [same]

theorem setStore_self (cluster : Cluster) : cluster.setStore host (cluster.storage host) = cluster := by
  simp [Cluster.setStore]

theorem ownsKey_of_read (owned : path = dir ∨ Inside dir path) : ownsKey dir path = true := by
  rcases owned with rfl | inside
  · simp [ownsKey]
  · exact inside.ownsKey

theorem Keeps.bind {op : Cluster → γ × Cluster} {next : γ → Cluster → δ × Cluster} (first : Keeps dir op)
    (later : ∀ value, Keeps dir (next value)) :
    Keeps dir fun cluster => next (op cluster).1 (op cluster).2 := by
  refine ⟨fun cluster => ?_, fun otherFile apart cluster => ?_⟩
  · rw [first.inside]
    exact (later _).inside _
  · rw [(later _).outside otherFile apart, first.outside otherFile apart]

variable (dirFile : IsFilePath dir)
include dirFile

theorem keeps_db {reads writes : Str → Prop} {op : MetadataDb → γ × MetadataDb} (confined : Confined reads writes op)
    (mine : ∀ key, reads key → ownsKey dir key = true) (below : ∀ key, writes key → Inside dir key) :
    Keeps dir fun cluster => ((op (cluster.mdb host)).1, cluster.setDb host (op (cluster.mdb host)).2) := by
  refine ⟨fun cluster => ?_, fun otherFile apart cluster => ?_⟩
  · have part := confined.inside (ownsKey dir) (fun key used => used.elim (mine key) fun written => (below key written).ownsKey)
      (cluster.mdb host)
    rw [seen_setDb]
    exact congrArg (fun answered => (answered.1, (seen dir cluster).setDb host answered.2)) part
  · have kept := confined.outside _ (fun key written => apart.not_ownsKey dirFile otherFile (below key written)) (cluster.mdb host)
    rw [seen_setDb, kept]
    exact Cluster.setDb_self _ _

theorem keeps_store {op : Storage → γ × Storage} (inside : Inside dir path) (confined : ConfinedTo (dirName path) op) :
    Keeps dir fun cluster => ((op (cluster.storage host)).1, cluster.setStore host (op (cluster.storage host)).2) := by
  have named : ∀ {other : Str} {value : Bool}, ownsName other (dirName path) = value →
      ∀ places, Under (dirName path) places → ownsPath other places = value := by
    intro other value owned places under
    cases places with
    | nil => cases under
    | cons name rest =>
      cases under
      exact owned
  refine ⟨fun cluster => ?_, fun otherFile apart cluster => ?_⟩
  · have part := confined.inside (ownsPath dir) (fun places used => used.elim (fun top => by rw [show places = [] from top]; rfl)
      (named (inside.ownsName dirFile) places)) (cluster.storage host)
    rw [seen_setStore]
    exact congrArg (fun answered => (answered.1, (seen dir cluster).setStore host answered.2)) part
  · have kept := confined.outside _ (named (apart.not_ownsName dirFile inside)) (cluster.storage host)
    rw [seen_setStore, kept]
    exact setStore_self _ _

theorem keeps_db_read {reads : Str → Prop} {answer : MetadataDb → γ} (confined : Confined reads (fun _ => False) fun db => (answer db, db))
    (mine : ∀ key, reads key → ownsKey dir key = true) : Keeps dir fun cluster => (answer (cluster.mdb host), cluster) := by
  have kept := keeps_db host dirFile confined mine fun key never => never.elim
  simpa only [Cluster.setDb_self] using kept

theorem keeps_remove (ndebug : Bool) (backend : Nat) (inside : Inside dir path) : Keeps dir fun cluster =>
    ((Daemon.rpcSrvRemove ndebug path (cluster.mdb host) (cluster.storage backend)).1,
      (cluster.setDb host (Daemon.rpcSrvRemove ndebug path (cluster.mdb host) (cluster.storage backend)).2.1).setStore backend
        (Daemon.rpcSrvRemove ndebug path (cluster.mdb host) (cluster.storage backend)).2.2) := by
  have entry := @keeps_db _ _ host dirFile (fun _ => False) _ _ (Confined.erase (β := fun _ => Cell) path ()) (fun _ never => never.elim)
    fun key same => same ▸ inside
  have chunks := keeps_store backend dirFile inside (Confined.removeAll (dirName path) [] (some (0 : Int)))
  simp only [Daemon.rpcSrvRemove, ChunkStorage.destroyChunkSpace, chunkDir_file inside.file]
  exact entry.bind fun _ => chunks

/-- Paths that continue one of the directory's paths. -/
theorem ownsKey_of_listed (owned : path = dir ∨ Inside dir path) {key : Str} (listed : MetadataDb.rootPath path <+: key) :
    ownsKey dir key = true := by
  have file : IsFilePath path := owned.elim (fun same => same ▸ dirFile) Inside.file
  have root : MetadataDb.rootPath path = path ++ ['/'] := by
    have joined := @DirectoryListing.rootPath_append path [] file.canonical.isAbsolute file.canonical.hasTrailingSlash
    rwa [List.append_nil, DirectoryListing.childPath, if_neg file.notRoot] at joined
  rw [root] at listed
  have below : dir ++ ['/'] <+: key := by
    rcases owned with rfl | inside
    · exact listed
    · exact inside.below.trans ((List.prefix_append _ _).trans listed)
  rw [ownsKey, List.isPrefixOf_iff_prefix.mpr below, Bool.or_true]

/-- A request about the directory, at any host that serves. -/
theorem serve_keeps (pools : Nat → IoPool) {β : Type} {request : Request β} (owned : Own dir β host request) :
    Keeps dir (Cluster.serve deployment pools host request) := by
  have at_path : ∀ {path : Str} (key : Str), path = dir ∨ Inside dir path → key = path → ownsKey dir key = true :=
    fun key owned same => by rw [same]; exact ownsKey_of_read owned
  cases request with
  | create path mode =>
    exact keeps_db host dirFile (confined_rpcSrvCreate _ mode) (fun key => at_path key (.inr owned)) fun key same => same ▸ owned
  | stat path => exact keeps_db_read host dirFile (confined_rpcSrvStat _) fun key => at_path key owned
  | decrSize path length =>
    exact keeps_db host dirFile (confined_rpcSrvDecrSize length) (fun key => at_path key (.inr owned)) fun key same => same ▸ owned
  | remove path => exact keeps_remove host dirFile _ _ owned
  | updateMetadentrySize path size offset append =>
    exact keeps_db host dirFile (confined_rpcSrvUpdateMetadentrySize size offset append) (fun key => at_path key (.inr owned))
      fun key same => same ▸ owned
  | getMetadentrySize path => exact keeps_db_read host dirFile (confined_rpcSrvGetMetadentrySize _) fun key => at_path key owned
  | getDirents path bulkSize =>
    exact keeps_db_read host dirFile (confined_rpcSrvGetDirents _ bulkSize) fun key => ownsKey_of_listed dirFile owned
  | truncData path length =>
    exact keeps_store (deployment.backend host) dirFile owned (confined_rpcSrvTruncate _ owned.file length)
  | writeData input buf =>
    exact keeps_store (deployment.backend host) dirFile owned (confined_rpcSrvWrite deployment _ owned.file buf)
  | readData input =>
    have kept := keeps_store (deployment.backend host) dirFile owned (confined_rpcSrvRead deployment (pools host) owned.file)
    simp only [setStore_self] at kept
    exact kept

end Requests

/-- A call on a path, or an open file, below the directory. -/
def CallInside (dir : Str) : HookCall → Prop
  | .openat path _ _ _ | .mkdirat path _ | .stat path | .access path | .unlinkat path _ | .truncate path _ => Inside dir path
  | .read file _ | .pread file _ _ | .readv file _ | .preadv file _ _ | .write file _ | .pwrite file _ _ | .writev file _
  | .pwritev file _ _ | .lseek file _ _ | .getdents file _ | .getdents64 file _ => Inside dir file.path
  | .dup _ _ | .dup2 _ _ _ => True

section Calls
variable {deployment : Deployment} (client : Client deployment) {dir path : Str}

theorem entryRequests (dirFile : IsFilePath dir) (inside : Inside dir path) : EntryRequests (Own dir) client path :=
  ⟨.inr inside, inside.dirname dirFile, fun _ _ => inside, fun _ _ => .inr inside⟩

theorem contentRequests (inside : Inside dir path) : ContentRequests (Own dir) client path := by
  have here : ∀ input : DataIn, input.path = path → Inside dir input.path := by
    rintro input rfl
    exact inside
  exact ⟨.inr inside, fun _ => inside, fun _ _ _ => inside, fun _ _ => inside, fun _ input _ => here input, fun _ => here⟩

theorem ownCall (dirFile : IsFilePath dir) {call : HookCall} (inside : CallInside dir call) : OwnCall (Own dir) client call := by
  cases call with
  | openat => exact ⟨entryRequests client dirFile inside, fun _ => contentRequests client inside⟩
  | truncate => exact ⟨entryRequests client dirFile inside, contentRequests client inside⟩
  | mkdirat | stat | access => exact entryRequests client dirFile inside
  | unlinkat => exact ⟨entryRequests client dirFile inside, fun _ => inside⟩
  | read | pread | readv | preadv | write | pwrite | writev | pwritev | lseek => exact contentRequests client inside
  | getdents | getdents64 | dup | dup2 => trivial

end Calls

/-- RocksDB merges leading operands of a key on one of the hosts. -/
structure Merging where
  host : Nat
  key : Str
  count : Nat

def Merging.apply (deployment : Deployment) (merging : Merging) (cluster : Cluster) : Cluster :=
  cluster.setDb merging.host ((cluster.mdb merging.host).collapse .default deployment.ndebug merging.key merging.count)

/-- Requests of all clients arrive in the given order, and merges take place between them. -/
abbrev runAll {ι : Type} [DecidableEq ι] {α : ι → Type} (deployment : Deployment) (pools : ι → Nat → IoPool)
    (events : List (Event ι Merging)) (clients : Clients Request Cluster α) : Clients Request Cluster α :=
  run (fun i => Cluster.server deployment (pools i)) (Merging.apply deployment) events clients

theorem part_collapse (keep : Str → Bool) (ndebug : Bool) (db : MetadataDb) (key : Str) (count : Nat) :
    part keep (db.collapse .default ndebug key count) =
      if keep key then MetadataDb.collapse .default ndebug (part keep db) key count else part keep db := by
  cases owned : keep key with
  | true =>
    rw [if_pos rfl, MetadataDb.collapse, MetadataDb.collapse, lookup_part db owned]
    split
    next => rfl
    next => exact part_insert db _ owned
  | false =>
    rw [if_neg Bool.false_ne_true, MetadataDb.collapse]
    split
    next => rfl
    next => exact part_insert_of_not db _ owned

/-- What a client sees after a merge depends on what it saw before. -/
theorem seen_merging (deployment : Deployment) (dir : Str) (merging : Merging) (cluster : Cluster) :
    seen dir (merging.apply deployment cluster) =
      if ownsKey dir merging.key then merging.apply deployment (seen dir cluster) else seen dir cluster := by
  rw [Merging.apply, seen_setDb, part_collapse]
  split
  next => rfl
  next => exact Cluster.setDb_self _ _

section Separation
variable {n : Nat} {deployment : Deployment} (dirs : Fin n → Str) (pools : Fin n → Nat → IoPool)

/-- The clients of directories that are apart from each other are separated. -/
theorem separated (files : ∀ i, IsFilePath (dirs i)) (apart : ∀ i j, i ≠ j → Apart (dirs i) (dirs j)) :
    Separated (fun i => Cluster.serving deployment (pools i)) (Merging.apply deployment) (fun i => Own (dirs i)) fun i => seen
      (dirs i) := by
  refine ⟨fun {i _} host {request} owned {cluster other} same => ?_, fun {i j _} host {request} owned different cluster => ?_,
    fun {i} merging {cluster other} same => ?_⟩
  · have kept := @serve_keeps deployment _ host (files i) (pools i) _ request owned
    exact Prod.mk.inj ((kept.inside cluster).symm.trans ((congrArg _ same).trans (kept.inside other)))
  · exact (serve_keeps host (files i) (pools i) owned).outside (files j) (apart i j different.symm) cluster
  · rw [seen_merging, seen_merging, same]

/-- What a client sees decides whether its request ends a daemon. -/
theorem failsAs (files : ∀ i, IsFilePath (dirs i)) :
    FailsAs (fun i => Cluster.server deployment (pools i)) (fun i => Cluster.serving deployment (pools i)) (Merging.apply deployment)
      (fun i => Own (dirs i)) (fun i => seen (dirs i)) Cluster.Up := by
  refine ⟨fun _ _ _ => Cluster.up_of_handle, fun _ _ _ => Cluster.handle_of_up, ?_, fun _ _ => Iff.rfl⟩
  intro i β host request owned state state' up up' same last
  have kept := @serve_keeps deployment _ host (files i) (pools i) _ request owned
  have answer : (Cluster.serve deployment (pools i) host request state).1 = (Cluster.serve deployment (pools i) host request state').1 :=
    (Prod.mk.inj ((kept.inside state).symm.trans ((congrArg _ same).trans (kept.inside state')))).1
  refine (Cluster.up_handle_iff up').mpr ?_
  rw [← answer]
  exact (Cluster.up_handle_iff up).mp last

/-- The clients with their calls before them. -/
def start (clients : Fin n → Client deployment) (calls : Fin n → List HookCall) (cluster : Cluster) :
    Clients Request Cluster fun _ : Fin n => List Outcome :=
  ⟨fun i => script (clients i) (calls i), cluster⟩

end Separation

private def pairDirs : Fin 2 → Str
  | 0 => "/a".toList
  | 1 => "/b".toList

/-- One client makes a directory and writes a file in it, the other one creates and removes
a file. -/
private def pairCalls : Fin 2 → List HookCall
  | 0 => [.mkdirat "/a/d".toList 0o755, .openat "/a/d/f".toList 0o644 { oCreat := true } 10000,
      .pwrite (.opened "/a/d/f".toList) [1, 2, 3] 0]
  | 1 => [.openat "/b/f".toList 0o644 { oCreat := true } 10000, .unlinkat "/b/f".toList false]

private theorem isFilePath_join {names : List Str} (valid : ∀ name ∈ names, Path.IsName name) (some_name : names ≠ []) :
    IsFilePath (Path.join names) :=
  ⟨⟨names, valid, rfl⟩, mt (Path.join_eq_root valid).mp some_name⟩

/-- The first requests of both, and a merge. -/
private def pairEvents (first second : Fin 2) : List (Event (Fin 2) Merging) :=
  [.arrive second 0, .arrive first 0, .environment ⟨0, "/a".toList, 1⟩, .arrive second 0, .arrive first 0]

end GekkoFwd.Proofs.SubtreeIsolation
