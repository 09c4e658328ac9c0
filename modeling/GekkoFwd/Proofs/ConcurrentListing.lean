import GekkoFwd.Proofs.DirectoryListing
import GekkoFwd.Proofs.ExclusiveCreate
import GekkoFwd.Proofs.RemovedData
import GekkoFwd.Proofs.SubtreeIsolation

/-! A directory that is listed while others create and remove entries. The hosts are asked one
after the other, so that the listing need not be that of any single moment. -/

namespace GekkoFwd.Proofs.ConcurrentListing
open RpcProgram ClientOps ClientSpec MergeLaws DirectoryListing ClientRequests
open SubtreeIsolation (Merging runAll)

variable {deployment : Deployment}

/-! The databases while names come and go. -/

/-- A path is stored on its host only, the root on every host, all can be read, and every
daemon serves. -/
structure Tidy (deployment : Deployment) (cluster : Cluster) : Prop where
  up : cluster.Up
  entries : ∀ {host key cell}, (cluster.mdb host).lookup key = some cell →
    IsKey key ∧ (key ≠ ['/'] → host = deployment.metadataHost key) ∧ ∃ md, Holds false Signed cell md
  root : ∀ host, ((cluster.mdb host).lookup ['/']).isSome

/-- Requests that create or remove an entry, or look at one. -/
def Names (deployment : Deployment) (β : Type) (host : Nat) : Request β → Prop
  | .create path mode => host = deployment.metadataHost path ∧ Path.Canonical path ∧ Dirents.nul ∉ path ∧
      (Mode.isReg mode ∨ Mode.isDir mode)
  | .remove path => Path.isAbsolute path = true ∧ path ≠ ['/']
  | .stat _ => True
  | .getDirents path _ => Path.isAbsolute path = true
  | .decrSize _ _ | .updateMetadentrySize _ _ _ _ | .getMetadentrySize _ | .truncData _ _ | .writeData _ _ | .readData _ => False

section Requests
variable {cluster after : Cluster} {pools : Nat → IoPool}

theorem Tidy.readable (tidy : Tidy deployment cluster) (host : Nat) : Readable deployment.ndebug (cluster.mdb host) := by
  intro key member
  obtain ⟨cell, found⟩ := NamespaceTree.mem_iff_lookup.mp member
  obtain ⟨_, _, md, holds⟩ := tidy.entries found
  exact ⟨md, record_of_holds found (holds.release _)⟩

theorem Tidy.placed (tidy : Tidy deployment cluster) : Placed deployment cluster := by
  have stored : ∀ {host key}, key ∈ cluster.mdb host → ∃ cell, (cluster.mdb host).lookup key = some cell :=
    NamespaceTree.mem_iff_lookup.mp
  refine ⟨tidy.up, fun host _ key member => ?_, fun host _ key member => ?_, fun host _ => ?_, fun host _ => tidy.readable host⟩
  · obtain ⟨cell, found⟩ := stored member
    exact (tidy.entries found).1
  · obtain ⟨cell, found⟩ := stored member
    exact (tidy.entries found).2.1
  · exact NamespaceTree.mem_iff_lookup.mpr (Option.isSome_iff_exists.mp (tidy.root host))

theorem Tidy.stat (tidy : Tidy deployment cluster) (host : Nat) (path : Str) :
    (∃ cell md, (cluster.mdb host).lookup path = some cell ∧ Holds false Signed cell md ∧
        Daemon.rpcSrvStat deployment.ndebug path (cluster.mdb host) = some (0, md.serialize .default)) ∨
      path ∉ cluster.mdb host ∧ Daemon.rpcSrvStat deployment.ndebug path (cluster.mdb host) = some (Errno.enoent, []) := by
  rw [Daemon.rpcSrvStat]
  cases held : (cluster.mdb host).lookup path with
  | none =>
    rw [MetadataDb.get_of_lookup_none held]
    exact .inr ⟨AList.lookup_eq_none.mp held, rfl⟩
  | some cell =>
    obtain ⟨_, _, md, holds⟩ := tidy.entries held
    rw [MetadataDb.get, MetadataDb.cell_of_lookup held, (holds.release _).value]
    exact .inl ⟨cell, md, rfl, holds, rfl⟩

/-- One cell changes. -/
theorem Tidy.change (tidy : Tidy deployment cluster) (up : after.Up) (host : Nat) (path : Str) (now : Option Cell)
    (updated : ∀ other key, (after.mdb other).lookup key = if other = host ∧ key = path then now else (cluster.mdb other).lookup key)
    (valid : ∀ cell, now = some cell → IsKey path ∧ (path ≠ ['/'] → host = deployment.metadataHost path) ∧ ∃ md, Holds false Signed cell md)
    (kept : path = ['/'] → now.isSome) : Tidy deployment after := by
  refine ⟨up, ?_, ?_⟩
  · intro other key cell found
    rw [updated] at found
    split at found
    next here =>
      rw [here.1, here.2]
      exact valid cell found
    next => exact tidy.entries found
  · intro other
    rw [updated]
    split
    next here => exact kept here.2.symm
    next => exact tidy.root other

theorem Tidy.create {path : Str} {mode : Mode} (tidy : Tidy deployment cluster) (up : after.Up) (canonical : Path.Canonical path)
    (plain : Dirents.nul ∉ path) (created : Created deployment path mode cluster after) : Tidy deployment after := by
  refine tidy.change up (deployment.metadataHost path) path (some (((cluster.mdb (deployment.metadataHost path)).cell path).merge
    (MergeOperand.create ((Metadata.ofMode mode).serialize .default)).serialize)) (fun other key => ?_) (fun cell found => ?_) fun _ => rfl
  · rw [NamespaceTree.lookup_created created]
    split
    next here => rw [here.1]
    next => rfl
  · cases found
    refine ⟨⟨canonical.isAbsolute, canonical.hasTrailingSlash, plain⟩, fun _ => rfl, ?_⟩
    cases before : (cluster.mdb (deployment.metadataHost path)).lookup path with
    | none =>
      rw [MetadataDb.cell, before]
      exact ⟨_, .created (recorded_ofMode mode)⟩
    | some old =>
      -- a creation that finds an entry leaves it as it is
      obtain ⟨_, _, md, holds⟩ := tidy.entries before
      rw [MetadataDb.cell_of_lookup before]
      exact ⟨md, .merge holds rfl holds.recorded.size⟩

/-- No such request ends a daemon. -/
theorem Tidy.answered (tidy : Tidy deployment cluster) {β : Type} {host : Nat} {request : Request β}
    (names : Names deployment β host request) :
    (Cluster.serve deployment pools host request cluster).1.isSome := by
  cases request with
  | create path mode =>
    obtain ⟨_, canonical, _, typed⟩ := names
    rw [Cluster.serve, rpcSrvCreate_ok deployment.ndebug canonical typed]
    rfl
  | remove path =>
    rw [Cluster.serve, RemovedData.rpcSrvRemove_absolute names.1 names.2]
    rfl
  | stat path =>
    rw [Cluster.serve]
    rcases tidy.stat host path with ⟨_, _, _, _, answer⟩ | ⟨_, answer⟩ <;> rw [answer] <;> rfl
  | getDirents path bulkSize => exact isSome_rpcSrvGetDirents names (tidy.readable host) bulkSize
  | decrSize | updateMetadentrySize | getMetadentrySize | truncData | writeData | readData => exact names.elim

theorem Tidy.serve (tidy : Tidy deployment cluster) {β : Type} {host : Nat} {request : Request β}
    (names : Names deployment β host request) :
    Tidy deployment (Cluster.serve deployment pools host request cluster).2 := by
  have up : (Cluster.serve deployment pools host request cluster).2.Up := by
    intro other
    rw [Cluster.down_serve, tidy.up other]
  cases request with
  | create path mode =>
    obtain ⟨rfl, canonical, plain, typed⟩ := names
    have taken : Created deployment path mode cluster (Cluster.serve deployment pools (deployment.metadataHost path)
        (.create path mode) cluster).2 := by
      rw [Cluster.serve, rpcSrvCreate_ok deployment.ndebug canonical typed]
      rfl
    exact tidy.create up canonical plain taken
  | remove path =>
    refine tidy.change up host path none (fun other key => ?_) (fun cell impossible => ?_) fun root => absurd root names.2
    · rw [removed_serve host path cluster other key]
      simp only [List.mem_singleton, and_comm]
    · cases impossible
  | stat | getDirents => exact tidy
  | decrSize | updateMetadentrySize | getMetadentrySize | truncData | writeData | readData => exact names.elim

theorem Tidy.handle (tidy : Tidy deployment cluster) {β : Type} {host : Nat} {request : Request β}
    (names : Names deployment β host request) :
    Tidy deployment (Cluster.handle deployment pools host request cluster).2 := by
  rw [Cluster.handle_of_isSome (tidy.up host) (tidy.answered names)]
  exact tidy.serve names

/-- RocksDB may merge operands at any time. -/
theorem Tidy.merging (tidy : Tidy deployment cluster) (merging : Merging) : Tidy deployment (merging.apply deployment cluster) := by
  obtain ⟨host, key, count⟩ := merging
  refine tidy.change (fun other => tidy.up other) host key
    (((cluster.mdb host).lookup key).map (Cell.collapse .default deployment.ndebug count)) (fun other path => ?_)
    (fun cell found => ?_) fun root => ?_
  · rw [Merging.apply, NamespaceTree.lookup_collapsed]
    split
    next here => rw [here.1, here.2]
    next => rfl
  · obtain ⟨old, before, rfl⟩ := Option.map_eq_some_iff.mp found
    obtain ⟨isKey, placed, md, holds⟩ := tidy.entries before
    exact ⟨isKey, placed, md, holds.collapse deployment.ndebug count⟩
  · rw [Option.isSome_map, root]
    exact tidy.root host

end Requests

/-! What a listing gets from the hosts. -/

section Listing
variable {client : Client deployment} {pools : Nat → IoPool} {seen : Cluster → Prop} {dir path : Str}

/-- The entry of a directory with its type. -/
def Has (deployment : Deployment) (cluster : Cluster) (dir name : Str) (flag : Bool) : Prop :=
  (name ≠ [] ∧ '/' ∉ name) ∧ ∃ md, entry deployment cluster (childPath dir name) = .ok md ∧ flag = Mode.isDir md.mode

/-- The answers that the hosts give in states of this kind. -/
def Answered (deployment : Deployment) (pools : Nat → IoPool) (seen : Cluster → Prop) (β : Type) (host : Nat) (request : Request β)
    (reply : Option β) : Prop :=
  ∃ cluster, seen cluster ∧ reply = (Cluster.handle deployment pools host request cluster).1

section Always
variable (tidy : ∀ cluster, seen cluster → Tidy deployment cluster)
include tidy

/-- A stat finds the entry or not, at one moment. -/
theorem always_getMetadata {kept : SysResult Metadata → Prop}
    (found : ∀ cluster md, seen cluster → entry deployment cluster path = .ok md → kept (.ok md))
    (missing : ∀ cluster, seen cluster → path ∉ cluster.mdb (deployment.metadataHost path) → kept (.error Errno.enoent)) :
    Always (Answered deployment pools seen) kept (getMetadata client path false) := by
  have stat : Always (Answered deployment pools seen)
      (fun answer => (∃ cluster md, seen cluster ∧ entry deployment cluster path = .ok md ∧ Recorded md ∧
        answer = .ok (md.serialize .default)) ∨
        ∃ cluster, seen cluster ∧ path ∉ cluster.mdb (deployment.metadataHost path) ∧ answer = .error Errno.enoent)
      (forwardStat client path) := by
    refine always_call fun reply answered => ?_
    obtain ⟨cluster, now, rfl⟩ := answered
    rw [client.locateFileMetadata_eq, (Cluster.handle_up ((tidy cluster now).up _)).1, Cluster.serve]
    rcases (tidy cluster now).stat (deployment.metadataHost path) path with ⟨cell, md, held, holds, answer⟩ | ⟨absent, answer⟩
    · rw [answer]
      exact .inl ⟨cluster, md, now, entry_of_holds held (holds.release _), holds.recorded, rfl⟩
    · rw [answer]
      exact .inr ⟨cluster, now, absent, rfl⟩
  refine stat.bind fun answer => ?_
  rintro (⟨cluster, md, now, held, recorded, rfl⟩ | ⟨cluster, now, absent, rfl⟩)
  · simp only [parseAttr, parse_serialize deployment.ndebug recorded]
    exact found cluster md now held
  · exact missing cluster now absent

end Always

/-- Answers from several moments are those of one moment for each host. -/
theorem exists_moments {γ : Type} {answer : Nat → Cluster → γ} {hosts : List Nat} {replies : List γ} (distinct : hosts.Nodup)
    (some_cluster : ∃ cluster, seen cluster)
    (each : List.Forall₂ (fun host reply => ∃ cluster, seen cluster ∧ reply = answer host cluster) hosts replies) :
    ∃ moment : Nat → Cluster, (∀ host, seen (moment host)) ∧ replies = hosts.map fun host => answer host (moment host) := by
  induction each with
  | nil =>
    obtain ⟨cluster, now⟩ := some_cluster
    exact ⟨fun _ => cluster, fun _ => now, rfl⟩
  | @cons host reply hosts replies here rest ih =>
    obtain ⟨absent, distinct⟩ := List.nodup_cons.mp distinct
    obtain ⟨cluster, now, rfl⟩ := here
    obtain ⟨moment, during, rfl⟩ := ih distinct
    refine ⟨Function.update moment host cluster, fun other => ?_, ?_⟩
    · by_cases same : other = host
      · rw [same, Function.update_self]
        exact now
      · rw [Function.update_of_ne same]
        exact during other
    · rw [List.map_cons, Function.update_self]
      congr 1
      refine List.map_congr_left fun other member => ?_
      have apart : other ≠ host := by
        rintro rfl
        exact absent member
      rw [Function.update_of_ne apart]

/-- The databases of the hosts, each as it was at its own moment. -/
def mixed (moment : Nat → Cluster) : Cluster := ⟨fun host => (moment host).mdb host, fun _ => ∅, fun _ => false⟩

theorem tidy_mixed {moment : Nat → Cluster} (tidy : ∀ host, Tidy deployment (moment host)) : Tidy deployment (mixed moment) :=
  ⟨fun _ => rfl, fun {host _ _} found => (tidy host).entries found, fun host => (tidy host).root host⟩

/-- The entries were there at some moment, none comes twice, and none is missing that was there
all the time. -/
structure Lists (deployment : Deployment) (seen : Cluster → Prop) (dir : Str) (entries : List (Str × Bool)) : Prop where
  distinct : (entries.map Prod.fst).Nodup
  sound : ∀ name flag, (name, flag) ∈ entries → ∃ cluster, seen cluster ∧ Has deployment cluster dir name flag
  complete : ∀ name flag, (∀ cluster, seen cluster → Has deployment cluster dir name flag) → (name, flag) ∈ entries

theorem lists_mixed {moment : Nat → Cluster} (key : IsKey dir) (tidy : ∀ host, Tidy deployment (moment host))
    (during : ∀ host, seen (moment host)) :
    Lists deployment seen dir
      ((List.range deployment.hosts).map fun host => children deployment.ndebug ((mixed moment).mdb host) dir).flatten := by
  have placed := (tidy_mixed tidy).placed
  refine ⟨nodup_gathered placed key, fun name flag member => ?_, fun name flag always => ?_⟩
  · obtain ⟨plain, host, known, md, stored, found, rfl⟩ := (mem_gathered placed key).mp member
    have here : host = deployment.metadataHost (childPath dir name) := placed.placed host known _ stored (childPath_ne_root plain.1)
    refine ⟨moment host, during host, plain, md, ?_, rfl⟩
    rw [here] at found ⊢
    exact found
  · obtain ⟨plain, md, found, rfl⟩ := always _ (during (deployment.metadataHost (childPath dir name)))
    refine (mem_gathered placed key).mpr ⟨plain, deployment.metadataHost (childPath dir name), Nat.mod_lt _ deployment.hosts_pos, md,
      ?_, found, rfl⟩
    exact stored_of_entry found

/-- The buffer of the client is large enough for what each host has of the directory. -/
def Fits (deployment : Deployment) (dir : Str) (cluster : Cluster) : Prop :=
  ∀ host < deployment.hosts, Dirents.outSize (children deployment.ndebug (cluster.mdb host) dir) ≤ perHostBuffSize deployment

/-- What `gkfs_opendir` may return. -/
def Lawful (deployment : Deployment) (seen : Cluster → Prop) (dir : Str) : SysResult (List (Str × Bool)) → Prop
  | .ok entries => Lists deployment seen dir entries
  | .error errno => ∃ cluster, seen cluster ∧ ((errno = Errno.enoent ∧ dir ∉ cluster.mdb (deployment.metadataHost dir)) ∨
      errno = Errno.enotdir ∧ ∃ md, entry deployment cluster dir = .ok md ∧ Mode.isDir md.mode = false)

section Always
variable (key : IsKey dir) (some_cluster : ∃ cluster, seen cluster) (tidy : ∀ cluster, seen cluster → Tidy deployment cluster)
  (fits : ∀ cluster, seen cluster → Fits deployment dir cluster)
include key some_cluster tidy fits

theorem always_forwardGetDirents : Always (Answered deployment pools seen) (Lists deployment seen dir) (forwardGetDirents client dir) := by
  intro replies answered
  rw [client.locateDirectoryMetadata_eq, List.length_range, List.forall₂_map_left_iff] at answered
  have each : List.Forall₂ (fun host reply => ∃ cluster, seen cluster ∧
      reply = Daemon.rpcSrvGetDirents deployment.ndebug dir (perHostBuffSize deployment) (cluster.mdb host))
        (List.range deployment.hosts) replies := by
    refine answered.imp fun host reply => ?_
    rintro ⟨cluster, now, rfl⟩
    exact ⟨cluster, now, (Cluster.handle_up ((tidy cluster now).up host)).1⟩
  obtain ⟨moment, during, rfl⟩ := exists_moments List.nodup_range some_cluster each
  have tidyAt := fun host => tidy (moment host) (during host)
  have received := gathered_eq (tidy_mixed tidyAt).placed key fun host known => fits (moment host) (during host) host known
  have parts : ((List.range deployment.hosts).map fun host =>
        Daemon.rpcSrvGetDirents deployment.ndebug dir (perHostBuffSize deployment) ((moment host).mdb host)).mapM
          (recvReply deployment.ndebug (perHostBuffSize deployment)) =
      (List.range deployment.hosts).mapM (hostDirents deployment (mixed moment) dir) := by
    rw [List.mapM_map]
    rfl
  rw [client.locateDirectoryMetadata_eq, List.length_range]
  change Always _ _ (Option.elim (List.mapM (recvReply deployment.ndebug (perHostBuffSize deployment)) _) _ _)
  rw [parts, received]
  exact lists_mixed key tidyAt during

theorem always_gkfsOpendir : Always (Answered deployment pools seen) (Lawful deployment seen dir) (gkfsOpendir client dir) := by
  refine Always.bind (@always_getMetadata deployment client pools seen dir tidy (fun answer =>
    (∃ cluster md, seen cluster ∧ entry deployment cluster dir = .ok md ∧ answer = .ok md) ∨
      ∃ cluster, seen cluster ∧ dir ∉ cluster.mdb (deployment.metadataHost dir) ∧ answer = .error Errno.enoent)
    (fun cluster md now found => .inl ⟨cluster, md, now, found, rfl⟩) fun cluster now absent => .inr ⟨cluster, now, absent, rfl⟩) ?_
  rintro answer (⟨cluster, md, now, found, rfl⟩ | ⟨cluster, now, absent, rfl⟩)
  · cases directory : Mode.isDir md.mode with
    | false =>
      simp only [directory, Bool.not_false, if_true]
      exact ⟨cluster, now, .inr ⟨rfl, md, found, directory⟩⟩
    | true =>
      simp only [directory, Bool.not_true, Bool.false_eq_true, if_false]
      exact (always_forwardGetDirents key some_cluster tidy fits).bind fun entries lists => lists
  · exact ⟨cluster, now, .inl ⟨rfl, absent⟩⟩

end Always

end Listing

/-! Runs. -/

/-- A call that creates or removes an entry, or only looks. -/
def Naming : HookCall → Prop
  | .openat path _ flags _ => Path.Canonical path ∧ Dirents.nul ∉ path ∧ flags.oTrunc = false
  | .mkdirat path _ | .stat path | .access path => Path.Canonical path ∧ Dirents.nul ∉ path
  | .unlinkat path _ => Path.Canonical path ∧ Dirents.nul ∉ path ∧ path ≠ ['/']
  | .getdents _ _ | .getdents64 _ _ | .dup _ _ | .dup2 _ _ _ => True
  | .truncate _ _ | .read _ _ | .pread _ _ _ | .readv _ _ | .preadv _ _ _ | .write _ _ | .pwrite _ _ _ | .writev _ _ | .pwritev _ _ _
  | .lseek _ _ _ => False

theorem entryRequests (client : Client deployment) {path : Str} (canonical : Path.Canonical path) (plain : Dirents.nul ∉ path) :
    EntryRequests (Names deployment) client path :=
  ⟨trivial, trivial, fun _ typed => ⟨client.locateFileMetadata_eq path, canonical, plain, typed⟩, fun _ _ => canonical.isAbsolute⟩

theorem ownCall_of_naming (client : Client deployment) {call : HookCall} (naming : Naming call) :
    OwnCall (Names deployment) client call := by
  cases call with
  | openat path mode flags newfd =>
    obtain ⟨canonical, plain, kept⟩ := naming
    refine ⟨entryRequests client canonical plain, fun truncates => ?_⟩
    rw [kept] at truncates
    cases truncates
  | mkdirat | stat | access => exact entryRequests client naming.1 naming.2
  | unlinkat path removeDir => exact ⟨entryRequests client naming.1 naming.2.1, fun _ => ⟨naming.1.isAbsolute, naming.2.2⟩⟩
  | getdents | getdents64 | dup | dup2 => trivial
  | truncate | read | pread | readv | preadv | write | pwrite | writev | pwritev | lseek => exact naming.elim

/-- What the clients return: one has listed the directory, the others have made their calls. -/
def Returned (ι : Type) : Option ι → Type
  | none => SysResult (List (Str × Bool))
  | some _ => List Outcome

section Runs
variable {ι : Type}

def start (client : Client deployment) (dir : Str) (others : ι → Client deployment) (calls : ι → List HookCall) (cluster : Cluster) :
    Clients Request Cluster (Returned ι) where
  programs
    | none => gkfsOpendir client dir
    | some i => script (others i) (calls i)
  state := cluster

variable [DecidableEq ι] (deployment) (pools : Option ι → Nat → IoPool) (events : List (Event (Option ι) Merging))

/-- The states that the hosts go through. -/
def moments (clients : Clients Request Cluster (Returned ι)) : List Cluster :=
  visited (fun i => Cluster.server deployment (pools i)) (Merging.apply deployment) events clients

/-- The requests of the clients: one only looks at the directory. -/
def Own (deployment : Deployment) (dir : Str) : Option ι → ∀ β, Nat → Request β → Prop
  | none, _, _, .stat path | none, _, _, .getDirents path _ => path = dir
  | none, _, _, _ => False
  | some _, β, host, request => Names deployment β host request

variable {deployment pools events}

omit [DecidableEq ι] in
theorem names_of_own {dir : Str} (key : IsKey dir) {i : Option ι} {β : Type} {host : Nat} {request : Request β}
    (own : Own deployment dir i β host request) : Names deployment β host request := by
  cases i with
  | some i => exact own
  | none =>
    cases request with
    | stat path => trivial
    | getDirents path bulkSize =>
      obtain rfl : path = dir := own
      exact key.absolute
    | create | decrSize | remove | updateMetadentrySize | getMetadentrySize | truncData | writeData | readData => exact own.elim

omit [DecidableEq ι] in
theorem handle_look {cluster : Cluster} (tidy : Tidy deployment cluster) {dir : Str} (key : IsKey dir) {pool : Nat → IoPool}
    {β : Type} {host : Nat} {request : Request β} (own : Own deployment dir (none : Option ι) β host request) :
    (Cluster.handle deployment pool host request cluster).2 = cluster := by
  rw [Cluster.handle_of_isSome (tidy.up host) (tidy.answered (names_of_own key own))]
  cases request with
  | stat | getDirents => rfl
  | create | decrSize | remove | updateMetadentrySize | getMetadentrySize | truncData | writeData | readData => exact own.elim

omit [DecidableEq ι] in
theorem posts_start (client : Client deployment) (dir : Str) (others : ι → Client deployment) {calls : ι → List HookCall}
    (naming : ∀ i, ∀ call ∈ calls i, Naming call) (cluster : Cluster) (i : Option ι) :
    Posts (Own deployment dir i) ((start client dir others calls cluster).programs i) := by
  cases i with
  | none => exact posts_gkfsOpendir rfl fun _ _ => rfl
  | some i => exact posts_script fun call member => ownCall_of_naming (others i) (naming i call member)

/-- The hosts answer from the states that the run goes through. -/
theorem always_runAll {clients : Clients Request Cluster (Returned ι)} {i : Option ι} {seen : Cluster → Prop} {kept : Returned ι i → Prop}
    {events : List (Event (Option ι) Merging)} (everywhere : ∀ moment ∈ moments deployment pools events clients, seen moment)
    (always : Always (Answered deployment (pools i) seen) kept (clients.programs i)) :
    Always (Answered deployment (pools i) seen) kept ((runAll deployment pools events clients).programs i) :=
  Always.run events everywhere always

/-- A directory is listed while other clients create and remove entries, with any order of all
requests. No daemon ends. The listing can always be finished, and then its entries are some that
were there at a moment, none comes twice, and none is missing that was there all the time. An
error was right at some moment. -/
theorem listing_while_names_change (client : Client deployment) {dir : Str} (key : IsKey dir) (others : ι → Client deployment)
    {calls : ι → List HookCall} (naming : ∀ i, ∀ call ∈ calls i, Naming call) {cluster : Cluster} (tidy : Tidy deployment cluster)
    (fits : ∀ moment ∈ moments deployment pools events (start client dir others calls cluster), Fits deployment dir moment) :
    (∀ moment ∈ moments deployment pools events (start client dir others calls cluster), moment.Up) ∧
    (∀ result, (runAll deployment pools events (start client dir others calls cluster)).programs none = .pure result →
      Lawful deployment (· ∈ moments deployment pools events (start client dir others calls cluster)) dir result) ∧
    ∃ count result,
      (runAll deployment pools (events ++ List.replicate count (.arrive none 0)) (start client dir others calls cluster)).programs none =
        .pure result := by
  have posts := posts_start client dir others naming cluster
  set before := start client dir others calls cluster
  have last : (runAll deployment pools events before).state ∈ moments deployment pools events before := mem_visited events before
  have tidyAll : ∀ moment ∈ moments deployment pools events before, Tidy deployment moment :=
    visited_keep (fun _ _ own _ tidy => tidy.handle (names_of_own key own)) (fun merging _ tidy => tidy.merging merging) posts tidy events
  have always : Always (Answered deployment (pools none) (· ∈ moments deployment pools events before))
      (Lawful deployment (· ∈ moments deployment pools events before) dir) ((runAll deployment pools events before).programs none) :=
    @always_runAll _ _ _ _ before none _ _ _ (fun _ member => member) (always_gkfsOpendir key ⟨_, last⟩ tidyAll fits)
  refine ⟨fun moment member => (tidyAll moment member).up, fun result finished => ?_, ?_⟩
  · rw [finished] at always
    exact always
  · -- the requests that are left arrive, and none of them changes anything
    set during := runAll deployment pools events before
    have looks : Posts (Own deployment dir (none : Option ι)) (during.programs none) := posts_run posts events none
    obtain ⟨count, ended⟩ :=
      @exists_finished _ _ _ _ _ _ (fun i => Cluster.server deployment (pools i)) (Merging.apply deployment) none _ during rfl
    have still : ∀ moment ∈ moments deployment pools (List.replicate count (.arrive none 0)) during, moment = during.state := by
      refine @visited_keep_alone _ _ _ _ _ _ _ _ (Own deployment dir) during none (· = during.state) ?_ looks rfl _
        fun event member => ⟨0, List.eq_of_mem_replicate member⟩
      rintro β host request own state rfl
      exact handle_look (tidyAll _ last) key own
    have concluded := always_runAll (fun moment member => still moment member ▸ last) always
    rcases ended with ⟨result, done⟩ | stopped
    · refine ⟨count, result, ?_⟩
      rw [runAll, run, List.foldl_append]
      exact done
    · rw [stopped] at concluded
      exact concluded.elim

end Runs

theorem tidy_fresh : Tidy deployment .fresh := by
  refine ⟨Cluster.up_fresh, fun {host key cell} found => ?_, fun _ => rfl⟩
  have root : key = ['/'] := List.mem_singleton.mp (NamespaceTree.mem_iff_lookup.mpr ⟨cell, found⟩)
  subst root
  obtain ⟨md, holds, _⟩ := (@NamespaceTree.sound_fresh deployment).cells _ _ _ found
  exact ⟨by decide, fun other => absurd rfl other, md, holds⟩

/-- The root is listed on the first host, then another client makes a directory that lies on
the second one. -/
private def makingEvents : List (Event (Option Unit) Merging) :=
  [.arrive none 0, .arrive none 0, .arrive none 0, .arrive (some ()) 0, .arrive (some ()) 0, .arrive (some ()) 0,
    .environment ⟨1, "/de".toList, 1⟩]

private def makingStart : Clients Request Cluster (Returned Unit) :=
  start (.first (.pair List.length)) "/".toList (fun _ => .first (.pair List.length)) (fun _ => [.mkdirat "/de".toList 0o755]) .fresh

theorem listing_while_names_change_made :
    (∃ earlier ∈ moments (.pair List.length) default makingEvents makingStart, "/de".toList ∉ earlier.mdb 1) ∧
    (∃ later ∈ moments (.pair List.length) default makingEvents makingStart, "/de".toList ∈ later.mdb 1) ∧
    ∃ count result, (runAll (.pair List.length) default (makingEvents ++ List.replicate count (.arrive none 0)) makingStart).programs none =
      .pure result := by
  have naming : ∀ call ∈ [HookCall.mkdirat "/de".toList 0o755], Naming call := by
    intro call member
    rw [List.mem_singleton.mp member]
    exact ⟨⟨["de".toList], by decide, rfl⟩, by decide⟩
  have fits : ∀ moment ∈ moments (.pair List.length) default makingEvents makingStart, Fits (.pair List.length) "/".toList moment := by
    have small : ∀ moment ∈ moments (.pair List.length) default makingEvents makingStart, ∀ host < 2,
        ((moment.mdb host).keys.map fun key => key.length + 2).sum ≤ perHostBuffSize (.pair List.length) := by decide +kernel
    exact fun moment member host known => (outSize_children_le _ _ _).trans (small moment member host known)
  exact ⟨by decide +kernel, by decide +kernel,
    (listing_while_names_change (.first (.pair List.length)) (by decide) (fun _ => .first (.pair List.length))
    (fun _ => naming) tidy_fresh fits).2.2⟩

end GekkoFwd.Proofs.ConcurrentListing
