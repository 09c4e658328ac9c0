import GekkoFwd.Lib.MapM
import GekkoFwd.Proofs.MergeLaws
import GekkoFwd.ClientOps

/-! What the client's metadata operations do when they return: which entries they
have read, and how the databases of the hosts have changed. -/

namespace GekkoFwd.Proofs.ClientSpec
open RpcProgram ClientOps

variable {deployment : Deployment} {pools : Nat → IoPool} {client : Client deployment} {path : Str}
  {cluster after : Cluster}

/-- The metadata of a path, read and parsed on its host. -/
def entry (deployment : Deployment) (cluster : Cluster) (path : Str) : Except Exn Metadata := do
  let value ← (cluster.mdb (deployment.metadataHost path)).get .default deployment.ndebug path
  Metadata.parse .default deployment.ndebug value

theorem entry_of_holds {cell : Cell} {md : Metadata} (found : (cluster.mdb (deployment.metadataHost path)).lookup path = some cell)
    (holds : MergeLaws.Holds deployment.ndebug MergeLaws.Signed cell md) : entry deployment cluster path = .ok md := by
  simp only [entry, MetadataDb.get, MetadataDb.cell_of_lookup found, holds.value, bind, Except.bind,
    MergeLaws.parse_serialize _ holds.recorded]

theorem entry_of_lookup_none (missing : (cluster.mdb (deployment.metadataHost path)).lookup path = none) :
    entry deployment cluster path = .error .notFound := by
  rw [entry, MetadataDb.get_of_lookup_none missing]
  rfl

/-- The value of `errno` after a stat whose read failed. -/
def statErrno : Exn → Int
  | .notFound => Errno.enoent
  | _ => Errno.ebusy

theorem exec_forwardStat (client : Client deployment) (path : Str) (cluster : Cluster) :
    (Cluster.serving deployment pools).exec (forwardStat client path) cluster =
      (some (((cluster.mdb (deployment.metadataHost path)).get .default deployment.ndebug path).mapError statErrno), cluster) := by
  simp only [forwardStat, Program.bind_eq, Program.call_bind, Server.exec_post_one, Cluster.serving, Cluster.serve,
    List.headD_cons, Daemon.rpcSrvStat, client.locateFileMetadata_eq]
  cases (cluster.mdb (deployment.metadataHost path)).get .default deployment.ndebug path with
  | ok value => rfl
  | error error => cases error <;> rfl

/-- The daemon answers unless an assertion fails while it reads the entry. -/
theorem isSome_rpcSrvStat {ndebug : Bool} {db : MetadataDb} (passed : db.get .default ndebug path ≠ .error .assertion) :
    (Daemon.rpcSrvStat ndebug path db).isSome := by
  rw [Daemon.rpcSrvStat]
  cases read : db.get .default ndebug path with
  | ok value => rfl
  | error error =>
    cases error with
    | assertion => exact absurd read passed
    | _ => rfl

theorem handle_stat {host : Nat} (up : cluster.Up) (passed : (cluster.mdb host).get .default deployment.ndebug path ≠ .error .assertion) :
    (Cluster.server deployment pools).handle host (.stat path) cluster =
      (Cluster.serving deployment pools).handle host (.stat path) cluster :=
  Cluster.handle_of_isSome (up host) (isSome_rpcSrvStat passed)

/-- The same while the daemon goes on. -/
theorem serves_forwardStat (up : cluster.Up)
    (passed : (cluster.mdb (deployment.metadataHost path)).get .default deployment.ndebug path ≠ .error .assertion) :
    (Cluster.server deployment pools).exec (forwardStat client path) cluster =
      (some (((cluster.mdb (deployment.metadataHost path)).get .default deployment.ndebug path).mapError statErrno), cluster) := by
  have alone := @exec_forwardStat deployment pools client path cluster
  simp only [forwardStat, Program.bind_eq, Program.call_bind, Server.exec_post_one, client.locateFileMetadata_eq] at alone ⊢
  rw [handle_stat up passed, ← alone]
  split <;> rfl

theorem exec_parseAttr {attr : Str} {md : Metadata}
    (ran : (Cluster.serving deployment pools).exec (parseAttr deployment attr) cluster = (some md, after)) :
    after = cluster ∧ Metadata.parse .default deployment.ndebug attr = .ok md := by
  rw [parseAttr] at ran
  split at ran
  next parsed =>
    cases ran
    exact ⟨rfl, parsed⟩
  next => cases ran

/-- A stat changes nothing, and returns what the host has for the path. -/
theorem exec_getMetadata {followLinks : Bool} {result : SysResult Metadata}
    (ran : (Cluster.serving deployment pools).exec (getMetadata client path followLinks) cluster = (some result, after)) :
    after = cluster ∧
      ((∃ md, result = .ok md ∧ entry deployment cluster path = .ok md) ∨
        ∃ error, result = .error (statErrno error) ∧
          (cluster.mdb (deployment.metadataHost path)).get .default deployment.ndebug path = .error error) := by
  obtain ⟨answer, between, asked, rest⟩ := Server.exec_bind_eq_some _ ran
  rw [exec_forwardStat] at asked
  cases asked
  cases read : (cluster.mdb (deployment.metadataHost path)).get .default deployment.ndebug path with
  | error error =>
    rw [read] at rest
    cases rest
    exact ⟨rfl, .inr ⟨error, rfl, rfl⟩⟩
  | ok value =>
    rw [read] at rest
    obtain ⟨md, between, parsed, last⟩ := Server.exec_bind_eq_some _ rest
    obtain ⟨same, parsed⟩ := exec_parseAttr parsed
    have found : entry deployment cluster path = .ok md := by rw [entry, read]; exact parsed
    split at last
    next => cases last
    next =>
      cases last
      exact ⟨same, .inl ⟨md, rfl, found⟩⟩

/-- A daemon that has the entry answers, and goes on. -/
theorem exec_getMetadata_ok (up : cluster.Up) {md : Metadata} (found : entry deployment cluster path = .ok md) {followLinks : Bool}
    (direct : (followLinks && Mode.isLnk md.mode) = false) :
    (Cluster.server deployment pools).exec (getMetadata client path followLinks) cluster = (some (.ok md), cluster) := by
  obtain ⟨value, read, parsed⟩ := bind_eq_ok found
  rw [getMetadata, Program.bind_eq, Server.exec_bind, serves_forwardStat up (by rw [read]; nofun), read]
  simp only [Except.mapError, parseAttr, parsed, direct, Program.bind_eq, Program.pure_eq, Program.pure_bind, Server.exec_pure,
    Bool.false_eq_true, if_false]

theorem exec_getMetadata_missing (up : cluster.Up) (missing : (cluster.mdb (deployment.metadataHost path)).lookup path = none)
    {followLinks : Bool} :
    (Cluster.server deployment pools).exec (getMetadata client path followLinks) cluster = (some (.error Errno.enoent), cluster) := by
  have read := @MetadataDb.get_of_lookup_none .default deployment.ndebug _ _ missing
  rw [getMetadata, Program.bind_eq, Server.exec_bind, serves_forwardStat up (by rw [read]; nofun), read]
  rfl

/-- An entry that a stat has brought is in the database, whatever becomes of the daemons. -/
theorem get_of_forwardStat {attr : Str}
    (asked : (Cluster.server deployment pools).exec (forwardStat client path) cluster = (some (.ok attr), after)) :
    after = cluster ∧ (cluster.mdb (deployment.metadataHost path)).get .default deployment.ndebug path = .ok attr := by
  have alone := @exec_forwardStat deployment pools client path cluster
  simp only [forwardStat, Program.bind_eq, Program.call_bind, Server.exec_post_one, List.headD_cons,
    client.locateFileMetadata_eq] at asked alone
  cases replied : ((Cluster.server deployment pools).handle (deployment.metadataHost path) (.stat path) cluster).1 with
  | none =>
    rw [replied] at asked
    cases asked
  | some reply =>
    have same : (Cluster.server deployment pools).handle (deployment.metadataHost path) (.stat path) cluster =
        (Cluster.serving deployment pools).handle (deployment.metadataHost path) (.stat path) cluster :=
      Cluster.handle_of_answered replied
    rw [← same, replied] at alone
    rw [replied] at asked
    simp only [Program.pure_eq, Server.exec_pure, Prod.mk.injEq, Option.some.injEq] at asked alone
    rw [asked.1] at alone
    refine ⟨asked.2.symm.trans alone.2, ?_⟩
    cases got : (cluster.mdb (deployment.metadataHost path)).get .default deployment.ndebug path with
    | ok value =>
      rw [got] at alone
      cases alone.1
      rfl
    | error error =>
      rw [got] at alone
      cases alone.1

/-- A stat that succeeds has read the entry. -/
theorem entry_of_getMetadata {followLinks : Bool} {md : Metadata}
    (ran : (Cluster.server deployment pools).exec (getMetadata client path followLinks) cluster = (some (.ok md), after)) :
    after = cluster ∧ entry deployment cluster path = .ok md := by
  obtain ⟨answer, between, asked, rest⟩ := Server.exec_bind_eq_some _ ran
  cases answer with
  | error => cases rest
  | ok attr =>
    obtain ⟨rfl, read⟩ := get_of_forwardStat asked
    obtain ⟨other, _, parsed, last⟩ := Server.exec_bind_eq_some _ rest
    rw [parseAttr] at parsed
    split at parsed
    next same =>
      cases parsed
      split at last
      next => cases last
      next =>
        cases last
        rw [entry, read]
        exact ⟨rfl, same⟩
    next => cases parsed

/-- The parent of a new entry has been read and is a directory. -/
theorem exec_checkParentDir {result : SysResult Unit}
    (ran : (Cluster.serving deployment pools).exec (checkParentDir client path) cluster = (some result, after)) :
    after = cluster ∧ (result = .ok () → ∃ md, entry deployment cluster (Path.dirname path) = .ok md ∧ Mode.isDir md.mode) := by
  obtain ⟨answer, between, asked, ran⟩ := Server.exec_bind_eq_some _ ran
  obtain ⟨rfl, ⟨md, rfl, found⟩ | ⟨error, rfl, _⟩⟩ := exec_getMetadata asked
  · cases ran
    refine ⟨rfl, fun passed => ⟨md, found, ?_⟩⟩
    by_contra other
    rw [if_neg other] at passed
    cases passed
  · cases ran
    exact ⟨rfl, fun passed => by cases passed⟩

/-- The host of a path has got a creation for it. -/
def Created (deployment : Deployment) (path : Str) (mode : Mode) (before after : Cluster) : Prop :=
  after = before.setDb (deployment.metadataHost path)
    ((before.mdb (deployment.metadataHost path)).merge path (.create ((Metadata.ofMode mode).serialize .default)))

theorem rpcSrvCreate_cases (ndebug : Bool) (path : Str) (mode : Mode) (db : MetadataDb) :
    Daemon.rpcSrvCreate ndebug path mode db =
        (some 0, db.merge path (.create ((Metadata.ofMode mode).serialize .default))) ∨
      Daemon.rpcSrvCreate ndebug path mode db = (none, db) := by
  rw [Daemon.rpcSrvCreate]
  split
  next => exact .inr rfl
  next =>
    split
    next => exact .inr rfl
    next returned => exact .inl (by rw [MetadataDb.put_eq_ok returned])

theorem rpcSrvCreate_ok (ndebug : Bool) {type : Mode} (canonical : Path.Canonical path)
    (typed : Mode.isReg type ∨ Mode.isDir type) (db : MetadataDb) :
    Daemon.rpcSrvCreate ndebug path type db = (some 0, db.merge path (.create ((Metadata.ofMode type).serialize .default))) := by
  have known : (Mode.isDir type || Mode.isReg type) = true := by
    rw [Bool.or_eq_true]
    exact typed.symm
  have ended : (path == ['/'] || !Path.hasTrailingSlash path) = true := by
    rcases canonical.hasTrailingSlash with root | ended
    · rw [root]
      rfl
    · rw [ended, Bool.not_false, Bool.or_true]
  simp only [Daemon.rpcSrvCreate, known, assertThat_true, MetadataDb.put, canonical.isAbsolute, ended, bind, Except.bind, pure,
    Except.pure]

/-- A creation succeeds when the host has taken it, and has no effect otherwise. -/
theorem exec_forwardCreate {mode : Mode} {result : SysResult Unit}
    (ran : (Cluster.serving deployment pools).exec (forwardCreate client path mode) cluster = (some result, after)) :
    (result = .ok () ∧ Created deployment path mode cluster after) ∨ (∃ errno, result = .error errno) ∧ after = cluster := by
  simp only [forwardCreate, Program.bind_eq, Program.call_bind, Server.exec_post_one, Cluster.serving, Cluster.serve,
    List.headD_cons, client.locateFileMetadata_eq] at ran
  rcases rpcSrvCreate_cases deployment.ndebug path mode (cluster.mdb (deployment.metadataHost path)) with taken | failed
  · rw [taken] at ran
    cases ran
    exact .inl ⟨rfl, rfl⟩
  · rw [failed] at ran
    cases ran
    exact .inr ⟨⟨_, rfl⟩, cluster.setDb_self _⟩

/-- A new entry has one of the two types and a directory above it. -/
theorem exec_gkfsCreate {mode : Mode} {result : SysResult Unit}
    (ran : (Cluster.serving deployment pools).exec (gkfsCreate client path mode) cluster = (some result, after)) :
    (result = .ok () ∧ ∃ type parent, nodeMode mode = .ok type ∧ entry deployment cluster (Path.dirname path) = .ok parent ∧
        Mode.isDir parent.mode ∧ Created deployment path type cluster after) ∨
      (∃ errno, result = .error errno) ∧ after = cluster := by
  rw [gkfsCreate] at ran
  cases typed : nodeMode mode with
  | error errno =>
    rw [typed] at ran
    cases ran
    exact .inr ⟨⟨_, rfl⟩, rfl⟩
  | ok type =>
    rw [typed] at ran
    obtain ⟨answer, between, checked, rest⟩ := Server.exec_bind_eq_some _ ran
    obtain ⟨rfl, passed⟩ := exec_checkParentDir checked
    cases answer with
    | error errno =>
      cases rest
      exact .inr ⟨⟨_, rfl⟩, rfl⟩
    | ok _ =>
      obtain ⟨parent, found, directory⟩ := passed rfl
      refine (exec_forwardCreate rest).imp_left ?_
      rintro ⟨succeeded, created⟩
      exact ⟨succeeded, type, parent, rfl, found, directory, created⟩

/-- A file type that passes the switch ends up as regular unless it is a directory. -/
theorem nodeMode_ok {mode type : Mode} (typed : nodeMode mode = .ok type) :
    (Mode.isReg type ∧ mode &&& Mode.ifmt ≠ Mode.ifdir) ∨ (Mode.isDir type ∧ mode &&& Mode.ifmt = Mode.ifdir) := by
  simp only [nodeMode] at typed
  split at typed
  next plain =>
    cases typed
    refine .inl ⟨?_, by rw [plain]; decide⟩
    rw [Mode.isReg, BitVec.and_or_distrib_right, plain]
    rfl
  next =>
    split at typed
    next known =>
      cases typed
      rcases known with regular | directory
      · exact .inl ⟨by rw [Mode.isReg, regular]; rfl, by rw [regular]; decide⟩
      · exact .inr ⟨by rw [Mode.isDir, directory]; rfl, directory⟩
    next => split at typed <;> cases typed

/-- The entry of a path has been removed on the given hosts. -/
def Removed (path : Str) (hosts : List Nat) (before after : Cluster) : Prop :=
  ∀ host key, (after.mdb host).lookup key = if key = path ∧ host ∈ hosts then none else (before.mdb host).lookup key

theorem Removed.cons {first : Nat} {hosts : List Nat} {between : Cluster} (here : Removed path [first] cluster between)
    (rest : Removed path hosts between after) : Removed path (first :: hosts) cluster after := by
  intro host key
  rw [rest, here]
  by_cases same : key = path <;> by_cases only : host = first <;> simp [same, only]

/-- The hosts remove the entry one after the other. -/
theorem removed_of_steps {server : Server Request Cluster} {kept : Cluster → Prop}
    (step : ∀ host cluster, kept cluster → Removed path [host] cluster (server.handle host (.remove path) cluster).2 ∧
      kept (server.handle host (.remove path) cluster).2) (hosts : List Nat) (initial : kept cluster) :
    Removed path hosts cluster (server.handleAll (hosts.map fun host => (host, Request.remove path)) cluster).2 := by
  induction hosts generalizing cluster with
  | nil => exact fun host key => by simp [Server.handleAll]
  | cons first hosts ih =>
    obtain ⟨removed, remains⟩ := step first cluster initial
    exact removed.cons (ih remains)

theorem removed_serve (host : Nat) (path : Str) (cluster : Cluster) :
    Removed path [host] cluster (Cluster.serve deployment pools host (.remove path) cluster).2 := by
  have db : (Cluster.serve deployment pools host (.remove path) cluster).2.mdb =
      Function.update cluster.mdb host ((cluster.mdb host).remove path) := by
    simp only [Cluster.serve, Cluster.mdb_setStore, Cluster.mdb_setDb, Daemon.rpcSrvRemove]
    split <;> rfl
  intro other key
  rw [db]
  by_cases here : other = host
  · subst here
    rw [Function.update_self, MetadataDb.lookup_remove]
    by_cases same : key = path <;> simp [same]
  · rw [Function.update_of_ne here]
    simp [here]

theorem removed_serving (path : Str) (hosts : List Nat) (cluster : Cluster) :
    Removed path hosts cluster ((Cluster.serving deployment pools).handleAll
      (hosts.map fun host => (host, Request.remove path)) cluster).2 :=
  @removed_of_steps path cluster (Cluster.serving deployment pools) (fun _ => True)
    (fun host cluster _ => ⟨@removed_serve deployment pools host path cluster, trivial⟩) hosts trivial

/-- A daemon that ends in its handler has removed the entry before. -/
theorem removed_handleAll (path : Str) (hosts : List Nat) (up : cluster.Up) :
    Removed path hosts cluster ((Cluster.server deployment pools).handleAll
      (hosts.map fun host => (host, Request.remove path)) cluster).2 := by
  refine @removed_of_steps path cluster (Cluster.server deployment pools)
    (fun cluster => ∀ host, cluster.down host = true → (cluster.mdb host).lookup path = none)
    (fun host cluster gone => ?_) hosts fun host down => by rw [up host] at down; cases down
  cases down : cluster.down host with
  | true =>
    have same : (Cluster.server deployment pools).handle host (.remove path) cluster = (none, cluster) := by
      simp only [Cluster.server, Cluster.handle, down, if_true]
    rw [same]
    refine ⟨fun other key => ?_, gone⟩
    by_cases both : key = path ∧ other ∈ [host]
    · rw [if_pos both, both.1, List.mem_singleton.mp both.2, gone host down]
    · rw [if_neg both]
  | false =>
    have removed : Removed path [host] cluster ((Cluster.server deployment pools).handle host (.remove path) cluster).2 := by
      intro other key
      rw [← @removed_serve deployment pools host path cluster other key]
      exact congrArg (fun db => (db other).lookup key) (Cluster.handle_up down).2.1
    refine ⟨removed, fun other ended => ?_⟩
    rw [removed]
    by_cases here : other = host
    · simp [here]
    · rw [if_neg fun both => here (List.mem_singleton.mp both.2)]
      refine gone other ?_
      rwa [Cluster.server, Cluster.down_handle_of_ne here] at ended

theorem metadataHost_mem_removeTargets (client : Client deployment) (path : Str) (only : Bool) (size : Word) :
    deployment.metadataHost path ∈ removeTargets client path only size := by
  rw [removeTargets, client.locateFileMetadata_eq]
  split
  next => exact List.mem_singleton_self _
  next =>
    split
    next => exact List.mem_cons_self
    next => exact List.mem_range.mpr (Nat.mod_lt _ deployment.hosts_pos)

theorem removeTargets_only (client : Client deployment) (path : Str) (size : Word) :
    removeTargets client path true size = [deployment.metadataHost path] := by
  rw [removeTargets, if_pos rfl, client.locateFileMetadata_eq]

/-- An unlink looks at the size and the type of the entry, but removes it in any case. -/
theorem exec_gkfsRemove {result : SysResult Unit}
    (ran : (Cluster.serving deployment pools).exec (gkfsRemove client path) cluster = (some result, after)) :
    (∃ md hosts, entry deployment cluster path = .ok md ∧ deployment.metadataHost path ∈ hosts ∧
        Removed path hosts cluster after) ∨
      after = cluster ∧ ∃ error, result = .error (statErrno error) ∧
        (cluster.mdb (deployment.metadataHost path)).get .default deployment.ndebug path = .error error := by
  obtain ⟨answer, between, asked, rest⟩ := Server.exec_bind_eq_some _ ran
  obtain ⟨rfl, ⟨md, rfl, found⟩ | ⟨error, rfl, failed⟩⟩ := exec_getMetadata asked
  · cases rest
    exact .inl ⟨md, _, found, metadataHost_mem_removeTargets client path _ _, removed_serving path _ _⟩
  · cases rest
    exact .inr ⟨rfl, error, rfl, failed⟩

/-- The part of the client's buffer that a host may fill. -/
def perHostBuffSize (deployment : Deployment) : Nat := direntsBuffSize / deployment.hosts

/-- What the client makes of the answer of one host about a directory. -/
def hostDirents (deployment : Deployment) (cluster : Cluster) (path : Str) (host : Nat) : Option (List (Str × Bool)) :=
  recvReply deployment.ndebug (perHostBuffSize deployment)
    (Daemon.rpcSrvGetDirents deployment.ndebug path (perHostBuffSize deployment) (cluster.mdb host))

/-- A listing puts the answers of all hosts together, from the state it found. -/
theorem exec_forwardGetDirents (client : Client deployment) (path : Str) (cluster : Cluster) :
    (Cluster.serving deployment pools).exec (forwardGetDirents client path) cluster =
      (((List.range deployment.hosts).mapM (hostDirents deployment cluster path)).map List.flatten, cluster) := by
  simp only [forwardGetDirents, client.locateDirectoryMetadata_eq, List.length_range, Server.exec_post]
  rw [Server.handleAll_reads]
  · simp only [List.map_map, List.mapM_map]
    change (Cluster.serving deployment pools).exec
      (((List.range deployment.hosts).mapM (hostDirents deployment cluster path)).elim _ _) cluster = _
    cases (List.range deployment.hosts).mapM (hostDirents deployment cluster path) <;> rfl
  · intro posted member
    obtain ⟨host, _, rfl⟩ := List.mem_map.mp member
    rfl

/-- Hosts that all have an answer go on. -/
theorem serves_forwardGetDirents (up : cluster.Up) (answered : ∀ host < deployment.hosts,
      (Daemon.rpcSrvGetDirents deployment.ndebug path (perHostBuffSize deployment) (cluster.mdb host)).isSome) :
    (Cluster.server deployment pools).exec (forwardGetDirents client path) cluster =
      (((List.range deployment.hosts).mapM (hostDirents deployment cluster path)).map List.flatten, cluster) := by
  have same : (Cluster.server deployment pools).handleAll ((List.range deployment.hosts).map fun host =>
      (host, Request.getDirents path (perHostBuffSize deployment))) cluster = (Cluster.serving deployment pools).handleAll
        ((List.range deployment.hosts).map fun host => (host, Request.getDirents path (perHostBuffSize deployment))) cluster := by
    refine Cluster.handleAll_of_answered up fun reply member => ?_
    rw [Server.handleAll_reads] at member
    · simp only [List.map_map, List.mem_map, List.mem_range] at member
      obtain ⟨host, known, rfl⟩ := member
      exact answered host known
    · intro posted member
      obtain ⟨host, _, rfl⟩ := List.mem_map.mp member
      rfl
  have alone := @exec_forwardGetDirents deployment pools client path cluster
  simp only [forwardGetDirents, client.locateDirectoryMetadata_eq, List.length_range, Server.exec_post] at alone ⊢
  rw [← alone]
  change _ = (Cluster.serving deployment pools).exec _ _
  rw [← perHostBuffSize, same]
  cases (List.mapM (recvReply deployment.ndebug (perHostBuffSize deployment)) _) <;> rfl

theorem length_recvDirents {ndebug : Bool} {size : Nat} {base : Str} {remaining boolPtr namesPtr : Nat} {entries : List (Str × Bool)}
    (received : recvDirents ndebug size base remaining boolPtr namesPtr = some entries) : entries.length = remaining := by
  induction remaining generalizing boolPtr namesPtr entries with
  | zero =>
    cases received
    rfl
  | succ remaining ih =>
    simp only [recvDirents, Option.bind_eq_bind, Option.bind_eq_some_iff, Option.pure_def, Option.some.injEq] at received
    obtain ⟨_, _, _, _, _, _, rest, tail, rfl⟩ := received
    rw [List.length_cons, ih tail]

/-- A host whose answer holds no entry has found none. -/
theorem getDirents_of_hostDirents_nil {host : Nat} (received : hostDirents deployment cluster path host = some []) :
    (cluster.mdb host).getDirents .default deployment.ndebug path = .ok [] := by
  rw [hostDirents, Daemon.rpcSrvGetDirents] at received
  cases listed : (cluster.mdb host).getDirents .default deployment.ndebug path with
  | error error =>
    rw [listed] at received
    cases received
  | ok entries =>
    simp only [listed] at received
    split at received
    next empty => rw [List.isEmpty_iff.mp empty]
    next =>
      split at received
      next => cases received
      next =>
        have none_found := length_recvDirents received
        rw [List.eq_nil_of_length_eq_zero none_found.symm]

theorem exec_gkfsOpendir {result : SysResult (List (Str × Bool))}
    (ran : (Cluster.serving deployment pools).exec (gkfsOpendir client path) cluster = (some result, after)) :
    after = cluster := by
  obtain ⟨answer, between, asked, rest⟩ := Server.exec_bind_eq_some _ ran
  obtain ⟨rfl, ⟨md, rfl, found⟩ | ⟨error, rfl, _⟩⟩ := exec_getMetadata asked
  · dsimp only at rest
    split at rest
    next => cases rest; rfl
    next =>
      obtain ⟨entries, between, listed, last⟩ := Server.exec_bind_eq_some _ rest
      cases last
      rw [exec_forwardGetDirents] at listed
      exact (Prod.mk.inj listed).2.symm
  · cases rest
    rfl

theorem assertClient_true (deployment : Deployment) : assertClient deployment true = .pure () := by
  rw [assertClient, Bool.or_true, if_pos rfl]
  rfl

theorem exec_assertClient {server : Server Request Cluster} {condition : Bool} {value : Unit}
    (passed : server.exec (assertClient deployment condition) cluster = (some value, after)) : after = cluster := by
  rw [assertClient] at passed
  split at passed
  next => exact (Prod.mk.inj passed).2.symm
  next => cases passed

theorem exec_forwardDecrSize {length : Word} {result : SysResult Unit}
    (ran : (Cluster.serving deployment pools).exec (forwardDecrSize client path length) cluster = (some result, after)) :
    result = .ok () ∧ after = cluster.setDb (deployment.metadataHost path)
      ((cluster.mdb (deployment.metadataHost path)).decreaseSize path length) := by
  rw [forwardDecrSize, client.locateFileMetadata_eq] at ran
  cases ran
  exact ⟨rfl, rfl⟩

theorem serves_forwardDecrSize (up : cluster.Up) (length : Word) :
    (Cluster.server deployment pools).exec (forwardDecrSize client path length) cluster =
      (some (.ok ()), cluster.setDb (deployment.metadataHost path)
        ((cluster.mdb (deployment.metadataHost path)).decreaseSize path length)) := by
  have answered : Cluster.handle deployment pools (deployment.metadataHost path) (.decrSize path length) cluster =
      (some 0, cluster.setDb (deployment.metadataHost path) ((cluster.mdb (deployment.metadataHost path)).decreaseSize path length)) :=
    Cluster.handle_of_some (up _) rfl
  simp only [forwardDecrSize, client.locateFileMetadata_eq, Program.bind_eq, Program.call_bind, Server.exec_post_one, Cluster.server,
    answered]
  rfl

theorem mdb_forwardTruncate {currentSize newSize : Word} {result : SysResult Unit}
    (ran : (Cluster.serving deployment pools).exec (forwardTruncate client path currentSize newSize) cluster =
      (some result, after)) : after.mdb = cluster.mdb := by
  obtain ⟨_, between, passed, rest⟩ := Server.exec_bind_eq_some _ ran
  cases exec_assertClient passed
  cases collected : TruncateHosts.collect (client.locateData path) currentSize newSize with
  | none =>
    rw [collected] at rest
    cases rest
  | some hosts =>
    rw [collected] at rest
    cases rest
    refine Server.handleAll_keeps _ (fun state : Cluster => state.mdb = cluster.mdb) ?_ rfl
    intro posted member state same
    obtain ⟨host, _, rfl⟩ := List.mem_map.mp member
    exact same

/-- A truncate to another size sends that size to the metadata host, whatever becomes
of the chunks. -/
theorem exec_gkfsTruncateTo_mdb {oldSize newSize : Word} {result : SysResult Unit}
    (ran : (Cluster.serving deployment pools).exec (gkfsTruncateTo client path oldSize newSize) cluster = (some result, after)) :
    (newSize = oldSize ∧ result = .ok () ∧ after = cluster) ∨
      newSize ≠ oldSize ∧ after.mdb = Function.update cluster.mdb (deployment.metadataHost path)
        ((cluster.mdb (deployment.metadataHost path)).decreaseSize path newSize) := by
  obtain ⟨_, between, passed, rest⟩ := Server.exec_bind_eq_some _ ran
  cases exec_assertClient passed
  obtain ⟨_, between, passed, rest⟩ := Server.exec_bind_eq_some _ rest
  cases exec_assertClient passed
  split at rest
  next same =>
    cases rest
    exact .inl ⟨same, rfl, rfl⟩
  next different =>
    obtain ⟨answer, between, shrunk, rest⟩ := Server.exec_bind_eq_some _ rest
    obtain ⟨rfl, rfl⟩ := exec_forwardDecrSize shrunk
    exact .inr ⟨different, mdb_forwardTruncate rest⟩

/-- A length that is negative or beyond the size is refused; otherwise the size that
was read is cut. -/
theorem exec_gkfsTruncate {length : Word} {result : SysResult Unit}
    (ran : (Cluster.serving deployment pools).exec (gkfsTruncate client path length) cluster = (some result, after)) :
    (after = cluster ∧ ∀ md, entry deployment cluster path = .ok md →
        (length.slt 0 ∨ md.size < length) ∧ result = .error Errno.einval) ∨
      ∃ md, entry deployment cluster path = .ok md ∧ length.slt 0 = false ∧ ¬md.size < length ∧
        (Cluster.serving deployment pools).exec (gkfsTruncateTo client path md.size length) cluster = (some result, after) := by
  rw [gkfsTruncate] at ran
  split at ran
  next negative =>
    cases ran
    exact .inl ⟨rfl, fun _ _ => ⟨.inl negative, rfl⟩⟩
  next positive =>
  obtain ⟨answer, between, asked, rest⟩ := Server.exec_bind_eq_some _ ran
  obtain ⟨rfl, ⟨md, rfl, found⟩ | ⟨error, rfl, failed⟩⟩ := exec_getMetadata asked
  · dsimp only at rest
    split at rest
    next larger =>
      cases rest
      refine .inl ⟨rfl, fun other same => ?_⟩
      cases found.symm.trans same
      exact ⟨.inr larger, rfl⟩
    next smaller => exact .inr ⟨md, found, Bool.eq_false_iff.mpr positive, smaller, rest⟩
  · have missing : entry deployment between path = .error error := by
      rw [entry, failed]
      rfl
    cases rest
    exact .inl ⟨rfl, fun md found => by cases missing.symm.trans found⟩

theorem not_isLnk_of_isReg {mode : Mode} (regular : Mode.isReg mode = true) : Mode.isLnk mode = false := by
  rw [Mode.isReg, beq_iff_eq] at regular
  rw [Mode.isLnk, regular]
  rfl

theorem not_isReg_of_isDir {mode : Mode} (directory : Mode.isDir mode = true) : ¬Mode.isReg mode = true := by
  intro regular
  rw [Mode.isDir, beq_iff_eq] at directory
  rw [Mode.isReg, directory] at regular
  cases regular

theorem eq_notFound {error : Exn} (missing : statErrno error = Errno.enoent) : error = .notFound := by
  cases error <;> first | rfl | cases missing

/-- An open that truncates a file it finds. -/
def Truncating (flags : OpenFlags) : Prop := (flags.oTrunc && (flags.oRdwr || flags.oWronly)) = true

/-- An open leaves everything as it is, or creates the missing file, or truncates the
file to nothing. -/
theorem exec_gkfsOpen {mode : Mode} {flags : OpenFlags} {result : SysResult Unit}
    (ran : (Cluster.serving deployment pools).exec (gkfsOpen client path mode flags) cluster = (some result, after)) :
    (after = cluster ∧ (result = .ok () → ∃ md, entry deployment cluster path = .ok md) ∧
        (Truncating flags → ∀ md, entry deployment cluster path = .ok md → Mode.isReg md.mode →
          (flags.oPath || flags.oAppend || flags.oExcl) = true)) ∨
      ((cluster.mdb (deployment.metadataHost path)).get .default deployment.ndebug path = .error .notFound ∧
        (Cluster.serving deployment pools).exec (gkfsCreate client path (mode ||| Mode.ifreg)) cluster = (some result, after)) ∨
      ∃ md, entry deployment cluster path = .ok md ∧ Truncating flags ∧
        (flags.oPath || flags.oAppend || flags.oExcl) = false ∧
        (Cluster.serving deployment pools).exec (gkfsTruncateTo client path md.size 0) cluster = (some result, after) := by
  rw [gkfsOpen] at ran
  split at ran
  next refused =>
    cases ran
    exact .inl ⟨rfl, nofun, fun _ _ _ _ => by simp [refused]⟩
  next supported =>
  split at ran
  next refused =>
    cases ran
    exact .inl ⟨rfl, nofun, fun _ _ _ _ => by simp [refused]⟩
  next overwriting =>
  obtain ⟨answer, between, asked, rest⟩ := Server.exec_bind_eq_some _ ran
  obtain ⟨rfl, ⟨md, rfl, found⟩ | ⟨error, rfl, failed⟩⟩ := exec_getMetadata asked
  · dsimp only at rest
    split at rest
    next refused =>
      cases rest
      exact .inl ⟨rfl, nofun, fun _ _ _ _ => by simp [refused]⟩
    next shared =>
    split at rest
    next => cases rest
    next =>
    split at rest
    next directory =>
      obtain ⟨opened, between, listed, last⟩ := Server.exec_bind_eq_some _ rest
      cases last
      refine .inl ⟨exec_gkfsOpendir listed, fun _ => ⟨md, found⟩, fun _ other same regular => ?_⟩
      cases found.symm.trans same
      exact absurd regular (not_isReg_of_isDir directory)
    next =>
    obtain ⟨_, between, passed, rest⟩ := Server.exec_bind_eq_some _ rest
    cases exec_assertClient passed
    split at rest
    next truncating =>
      exact .inr (.inr ⟨md, found, truncating, by simp [supported, overwriting, shared], rest⟩)
    next plain =>
      cases rest
      exact .inl ⟨rfl, fun _ => ⟨md, found⟩, fun truncating => absurd truncating plain⟩
  · have missing : entry deployment between path = .error error := by
      rw [entry, failed]
      rfl
    have unchanged : ∀ md, entry deployment between path = .ok md → Mode.isReg md.mode →
        (flags.oPath || flags.oAppend || flags.oExcl) = true := fun md found => by cases missing.symm.trans found
    dsimp only at rest
    split at rest
    next =>
      cases rest
      exact .inl ⟨rfl, nofun, fun _ => unchanged⟩
    next absent =>
    split at rest
    next =>
      cases rest
      exact .inl ⟨rfl, nofun, fun _ => unchanged⟩
    next =>
    split at rest
    next =>
      cases rest
      exact .inl ⟨rfl, nofun, fun _ => unchanged⟩
    next => exact .inr (.inl ⟨eq_notFound (not_not.mp absent) ▸ failed, rest⟩)

theorem mdb_handle_writeData (host : Nat) (input : DataIn) (buf : List Byte) (cluster : Cluster) :
    ((Cluster.server deployment pools).handle host (.writeData input buf) cluster).2.mdb = cluster.mdb := by
  cases down : cluster.down host with
  | true => simp only [Cluster.server, Cluster.handle, down, if_true]
  | false => exact (Cluster.handle_up down).2.1

theorem mdb_forwardWrite (client : Client deployment) (path : Str) (buf : List Byte) (appendFlag : Bool)
    (inOffset writeSize updatedSize : Word) (cluster : Cluster) :
    ((Cluster.server deployment pools).exec (forwardWrite client path buf appendFlag inOffset writeSize updatedSize) cluster).2.mdb =
      cluster.mdb := by
  rw [forwardWrite, assertClient]
  cases deployment.ndebug || decide (0 < writeSize) with
  | false => rfl
  | true =>
    cases Transfer.inputs (.forwardWrite appendFlag inOffset writeSize updatedSize) client path with
    | none => rfl
    | some requests =>
      refine Server.handleAll_keeps _ (fun state : Cluster => state.mdb = cluster.mdb) ?_ rfl
      intro posted member state same
      obtain ⟨request, _, rfl⟩ := List.mem_map.mp member
      rw [mdb_handle_writeData, same]

theorem exec_forwardUpdateMetadentrySize (client : Client deployment) (path : Str) (size offset : Word) (append : Bool)
    (up : cluster.down (deployment.metadataHost path) = false) :
    (Cluster.server deployment pools).exec (forwardUpdateMetadentrySize client path size offset append) cluster =
      (some (.ok (size + offset)), cluster.setDb (deployment.metadataHost path)
        ((cluster.mdb (deployment.metadataHost path)).increaseSize path (size + offset) append)) := by
  have answered : Cluster.handle deployment pools (deployment.metadataHost path) (.updateMetadentrySize path size offset append) cluster =
      (some (0, size + offset), cluster.setDb (deployment.metadataHost path)
        ((cluster.mdb (deployment.metadataHost path)).increaseSize path (size + offset) append)) := Cluster.handle_of_some up rfl
  simp only [forwardUpdateMetadentrySize, client.locateFileMetadata_eq, Program.bind_eq, Program.call_bind, Server.exec_post_one,
    Cluster.server, answered]
  rfl

/-- A write whose metadata host does not answer gets no further. -/
theorem exec_gkfsPwrite_down (client : Client deployment) (path : Str) (appendFlag : Bool) (buf : List Byte) (offset : Word)
    (down : cluster.down (deployment.metadataHost path) = true) :
    (Cluster.server deployment pools).exec (gkfsPwrite client path appendFlag buf offset) cluster =
      (some (.error Errno.ebusy), cluster) := by
  have silent : Cluster.handle deployment pools (deployment.metadataHost path)
      (.updateMetadentrySize path (.ofNat 64 buf.length) offset appendFlag) cluster = (none, cluster) := if_pos down
  rw [gkfsPwrite, Program.bind_eq, Server.exec_bind]
  simp only [forwardUpdateMetadentrySize, client.locateFileMetadata_eq, Program.bind_eq, Program.call_bind,
    Server.exec_post_one, Cluster.server, silent]
  rfl

/-- A write announces the end of its range to the metadata host, whatever becomes of
the data. -/
theorem mdb_gkfsPwrite (client : Client deployment) (path : Str) (appendFlag : Bool) (buf : List Byte) (offset : Word)
    (up : cluster.down (deployment.metadataHost path) = false) :
    ((Cluster.server deployment pools).exec (gkfsPwrite client path appendFlag buf offset) cluster).2.mdb =
      Function.update cluster.mdb (deployment.metadataHost path)
        ((cluster.mdb (deployment.metadataHost path)).increaseSize path (.ofNat 64 buf.length + offset) appendFlag) := by
  rw [gkfsPwrite, Program.bind_eq, Server.exec_bind, exec_forwardUpdateMetadentrySize client path _ _ _ up]
  exact mdb_forwardWrite client path buf appendFlag offset _ _ _

/-! Calls that end the process instead of returning. They have only read before. -/

section Aborted

theorem aborted_getMetadata {followLinks : Bool}
    (ran : (Cluster.serving deployment pools).exec (getMetadata client path followLinks) cluster = (none, after)) : after = cluster := by
  rcases Server.exec_bind_eq_none _ ran with asking | ⟨answer, between, asked, rest⟩
  · rw [exec_forwardStat] at asking
    cases asking
  · rw [exec_forwardStat] at asked
    obtain ⟨-, rfl⟩ := Prod.mk.inj asked
    split at rest
    next => cases rest
    next =>
      rcases Server.exec_bind_eq_none _ rest with parsing | ⟨md, between, parsed, last⟩
      · rw [parseAttr] at parsing
        split at parsing
        next => cases parsing
        next => exact (Prod.mk.inj parsing).2.symm
      · obtain ⟨rfl, _⟩ := exec_parseAttr parsed
        split at last
        next => exact (Prod.mk.inj last).2.symm
        next => cases last

theorem aborted_checkParentDir
    (ran : (Cluster.serving deployment pools).exec (checkParentDir client path) cluster = (none, after)) : after = cluster := by
  rcases Server.exec_bind_eq_none _ ran with asking | ⟨answer, between, asked, rest⟩
  · exact aborted_getMetadata asking
  · split at rest <;> cases rest

theorem forwardCreate_returns {mode : Mode} :
    (Cluster.serving deployment pools).exec (forwardCreate client path mode) cluster ≠ (none, after) := by
  intro ran
  simp only [forwardCreate, Program.bind_eq, Program.call_bind, Server.exec_post_one] at ran
  split at ran <;> cases ran

theorem aborted_gkfsCreate {mode : Mode}
    (ran : (Cluster.serving deployment pools).exec (gkfsCreate client path mode) cluster = (none, after)) : after = cluster := by
  rw [gkfsCreate] at ran
  split at ran
  next => cases ran
  next =>
    rcases Server.exec_bind_eq_none _ ran with checking | ⟨answer, between, checked, rest⟩
    · exact aborted_checkParentDir checking
    · split at rest
      next => cases rest
      next => exact absurd rest forwardCreate_returns

theorem aborted_forwardGetDirents
    (ran : (Cluster.serving deployment pools).exec (forwardGetDirents client path) cluster = (none, after)) : after = cluster := by
  rw [exec_forwardGetDirents] at ran
  exact (Prod.mk.inj ran).2.symm

theorem aborted_gkfsOpendir (ran : (Cluster.serving deployment pools).exec (gkfsOpendir client path) cluster = (none, after)) :
    after = cluster := by
  rcases Server.exec_bind_eq_none _ ran with asking | ⟨answer, between, asked, rest⟩
  · exact aborted_getMetadata asking
  · obtain ⟨rfl, _⟩ := exec_getMetadata asked
    split at rest
    next => cases rest
    next =>
      split at rest
      next => cases rest
      next =>
        rcases Server.exec_bind_eq_none _ rest with listing | ⟨entries, between, _, last⟩
        · exact aborted_forwardGetDirents listing
        · cases last

theorem aborted_assertClient {condition : Bool}
    (ran : (Cluster.serving deployment pools).exec (assertClient deployment condition) cluster = (none, after)) : after = cluster := by
  rw [assertClient] at ran
  split at ran
  next => cases ran
  next => exact (Prod.mk.inj ran).2.symm

theorem aborted_gkfsTruncateTo_self {size : Word}
    (ran : (Cluster.serving deployment pools).exec (gkfsTruncateTo client path size size) cluster = (none, after)) :
    after = cluster := by
  rcases Server.exec_bind_eq_none _ ran with failed | ⟨_, between, passed, rest⟩
  · exact aborted_assertClient failed
  cases exec_assertClient passed
  rcases Server.exec_bind_eq_none _ rest with failed | ⟨_, between, passed, rest⟩
  · exact aborted_assertClient failed
  rw [if_pos rfl] at rest
  cases rest

/-- An open of a directory or an empty file. -/
theorem aborted_gkfsOpen {mode : Mode} {flags : OpenFlags} (empty : ∀ md, entry deployment cluster path = .ok md → md.size = 0)
    (ran : (Cluster.serving deployment pools).exec (gkfsOpen client path mode flags) cluster = (none, after)) : after = cluster := by
  rw [gkfsOpen] at ran
  split at ran
  next => cases ran
  next =>
  split at ran
  next => cases ran
  next =>
  rcases Server.exec_bind_eq_none _ ran with asking | ⟨answer, between, asked, rest⟩
  · exact aborted_getMetadata asking
  obtain ⟨rfl, ⟨md, rfl, found⟩ | ⟨error, rfl, _⟩⟩ := exec_getMetadata asked
  · dsimp only at rest
    split at rest
    next => cases rest
    next =>
    split at rest
    next => exact (Prod.mk.inj rest).2.symm
    next =>
    split at rest
    next =>
      rcases Server.exec_bind_eq_none _ rest with opening | ⟨_, between, _, last⟩
      · exact aborted_gkfsOpendir opening
      · cases last
    next =>
    rcases Server.exec_bind_eq_none _ rest with failed | ⟨_, between, passed, rest⟩
    · exact aborted_assertClient failed
    cases exec_assertClient passed
    split at rest
    next =>
      rw [empty md found] at rest
      exact aborted_gkfsTruncateTo_self rest
    next => cases rest
  · dsimp only at rest
    split at rest
    next => cases rest
    next =>
    split at rest
    next => cases rest
    next =>
    split at rest
    next => cases rest
    next => exact aborted_gkfsCreate rest

end Aborted

end GekkoFwd.Proofs.ClientSpec
