import GekkoFwd.Proofs.ExclusiveCreate
import GekkoFwd.Proofs.FileSystemFiles

/-! The hosts together behave like the specified file system. Every admissible call of any
client returns what is specified, from every state that such calls lead to. -/

namespace GekkoFwd.Proofs.FileSystemRefinement
open RpcProgram ClientOps ClientSpec MergeLaws StorageSpec DirectoryListing DataPath ReadAfterWrite ChunkRequests FileSystemSpec

section Calls
variable {deployment : Deployment} {pools : Nat → IoPool} {client : Client deployment} {fs : FileSystem} {path : Str}
  {cluster : Cluster}

theorem Represents.created (represents : Represents deployment fs cluster) (plain : Plain path) (notRoot : path ≠ ['/'])
    (absent : fs path = none) {node : Node} (empty : node.content = []) {after : Cluster}
    (created : Created deployment path node.mode cluster after) :
    Represents deployment (Function.update fs path (some node)) after := by
  subst created
  have healthy := represents.healthy
  refine represents.change plain notRoot ⟨healthy.stores, healthy.up⟩ (unlisted_update (fun key other => ?_) rfl) ?_
    (.refl path cluster) fun x => ?_
  · rw [MetadataDb.lookup_merge, if_neg other]
  · refine ⟨_, Metadata.ofMode node.mode, ?_, .created (recorded_ofMode node.mode), rfl, by rw [empty]; rfl⟩
    rw [Cluster.mdb_setDb, Function.update_self, MetadataDb.lookup_merge, if_pos rfl, MetadataDb.cell, represents.missing absent]
    rfl
  · refine (represents.bytes path plain x).trans ?_
    rw [contentAt, absent, Option.elim_none, Option.elim_some, empty]

/-- What `gkfs_create` does, in the terms of the specification. -/
def CreatesNode (fs : FileSystem) (path : Str) (node : Node) (deployment : Deployment) (ran : Option (SysResult Unit) × Cluster) : Prop :=
  ∃ result after, ran = (some result, after) ∧ Agrees (result.map fun _ => .done) (fs.create path node).1 ∧
    Represents deployment (fs.create path node).2 after

theorem Represents.createNode (represents : Represents deployment fs cluster) (plain : Plain path) (absent : fs path = none)
    {node : Node} (empty : node.content = []) {mode : Mode} (typed : nodeMode mode = .ok node.mode) :
    CreatesNode fs path node deployment ((Cluster.server deployment pools).exec (gkfsCreate client path mode) cluster) := by
  have notRoot : path ≠ ['/'] := by
    rintro rfl
    obtain ⟨_, top⟩ := represents.root
    cases absent.symm.trans top
  rw [CreatesNode, ClientOps.gkfsCreate, typed]
  cases parent : fs (Path.dirname path) with
  | none =>
    refine ⟨.error Errno.enoent, cluster, ?_, by simp [FileSystem.create, parent, Agrees, Except.map], by simpa [FileSystem.create, parent]⟩
    simp only [checkParentDir, Program.bind_eq, Server.exec_bind,
      exec_getMetadata_missing represents.healthy.up (represents.missing parent)]
    rfl
  | some above =>
    obtain ⟨md, asked, mode, _⟩ := @Represents.exec_getMetadata deployment pools client fs _ cluster above represents parent false
    cases above with
    | file permissions content =>
      refine ⟨.error Errno.enotdir, cluster, ?_, by simp [FileSystem.create, parent, Agrees, Except.map],
        by simpa [FileSystem.create, parent]⟩
      have other : Mode.isDir md.mode = false := by rw [mode, Node.isDir_mode]; rfl
      simp only [checkParentDir, Program.bind_eq, Server.exec_bind, asked, other]
      rfl
    | directory permissions =>
      have directory : Mode.isDir md.mode = true := by rw [mode, Node.isDir_mode]; rfl
      have known : Mode.isReg node.mode ∨ Mode.isDir node.mode := by
        rw [node.isReg_mode, node.isDir_mode]
        cases node.isDirectory <;> simp
      obtain ⟨after, sent, created⟩ := @ExclusiveCreate.deliver_forwardCreate deployment pools client path cluster
        represents.healthy.up _ plain.canonical known
      refine ⟨.ok (), after, ?_, by simp [FileSystem.create, parent, Agrees, Except.map], ?_⟩
      · simp only [checkParentDir, Program.bind_eq, Server.exec_bind, asked, directory, if_true, Program.pure_eq, Server.exec_pure]
        rw [Server.exec_deliver, sent]
        rfl
      · simp only [FileSystem.create, parent]
        exact represents.created plain notRoot absent empty created

section Directory
variable {permissions : Permissions}

/-- The record of a stored path is the one of its node. -/
theorem Represents.record (represents : Represents deployment fs cluster) (notRoot : path ≠ ['/']) {host : Nat}
    (member : path ∈ cluster.mdb host) :
    ∃ node md, fs path = some node ∧ record deployment.ndebug (cluster.mdb host) path = .ok md ∧ Mode.isDir md.mode = node.isDirectory := by
  have owner := (represents.keys host path member).2 notRoot
  obtain ⟨cell, found⟩ := NamespaceTree.mem_iff_lookup.mp member
  have stands := represents.entries path
  rw [← owner, found] at stands
  cases named : fs path with
  | none =>
    rw [named] at stands
    cases stands
  | some node =>
    rw [named] at stands
    obtain ⟨_, md, same, holds, mode, _⟩ := stands
    cases same
    exact ⟨node, md, rfl, record_of_holds found (holds.release deployment.ndebug), by rw [mode, node.isDir_mode]⟩

theorem Represents.placed (represents : Represents deployment fs cluster) : Placed deployment cluster := by
  refine ⟨represents.healthy.up, fun host _ key member => (represents.keys host key member).1.isKey,
    fun host _ key member => (represents.keys host key member).2, fun host _ => ?_, fun host _ key member => ?_⟩
  · obtain ⟨cell, _, found, _⟩ := represents.roots host
    exact NamespaceTree.mem_iff_lookup.mpr ⟨cell, found⟩
  · by_cases top : key = ['/']
    · obtain ⟨cell, md, found, holds⟩ := represents.roots host
      rw [top]
      exact ⟨md, record_of_holds found (holds.release deployment.ndebug)⟩
    · obtain ⟨_, md, _, read, _⟩ := represents.record top member
      exact ⟨md, read⟩

/-- What the hosts have below a directory. -/
def gathered (deployment : Deployment) (cluster : Cluster) (path : Str) : List (Str × Bool) :=
  ((List.range deployment.hosts).map fun host => children deployment.ndebug (cluster.mdb host) path).flatten

theorem Represents.lists (represents : Represents deployment fs cluster) (plain : Plain path) :
    Lists (fun name => (fs.child path name).map Node.isDirectory) (gathered deployment cluster path) := by
  refine ⟨nodup_gathered represents.placed plain.isKey, fun name flag => ?_⟩
  rw [gathered, mem_gathered represents.placed plain.isKey, FileSystem.child]
  constructor
  · rintro ⟨shape, host, _, md, member, read, rfl⟩
    obtain ⟨node, other, named, again, directory⟩ := represents.record (childPath_ne_root shape.1) member
    cases read.symm.trans again
    rw [if_pos shape, named, directory]
    rfl
  · intro listed
    split at listed
    next shape =>
      obtain ⟨node, named, rfl⟩ := Option.map_eq_some_iff.mp listed
      have stands := represents.entries (childPath path name)
      rw [named] at stands
      obtain ⟨cell, md, found, holds, mode, _⟩ := stands
      refine ⟨shape, deployment.metadataHost (childPath path name), Nat.mod_lt _ deployment.hosts_pos, md,
        NamespaceTree.mem_iff_lookup.mpr ⟨cell, found⟩, record_of_holds found (holds.release deployment.ndebug), ?_⟩
      rw [mode, node.isDir_mode]
    next => cases listed

/-- The hosts answer with all entries of a directory. -/
theorem Represents.exec_forwardGetDirents (represents : Represents deployment fs cluster) (plain : Plain path)
    (fits : Fits deployment fs path) :
    (Cluster.server deployment pools).exec (forwardGetDirents client path) cluster =
    (some (gathered deployment cluster path), cluster) := by
  have total := fits _ (represents.lists plain)
  have each : ∀ host < deployment.hosts,
      Dirents.outSize (children deployment.ndebug (cluster.mdb host) path) ≤ perHostBuffSize deployment := by
    intro host known
    have part : (children deployment.ndebug (cluster.mdb host) path).Sublist (gathered deployment cluster path) :=
      List.sublist_flatten_of_mem (List.mem_map_of_mem (List.mem_range.mpr known))
    refine Nat.le_trans ?_ total
    rw [outSize_eq_sum, outSize_eq_sum]
    exact (part.map _).sum_le_sum fun _ _ => Nat.zero_le _
  have answered := fun host known => isSome_rpcSrvGetDirents plain.isKey.absolute (represents.placed.readable host known)
    (perHostBuffSize deployment)
  rw [serves_forwardGetDirents represents.healthy.up answered, gathered_eq represents.placed plain.isKey each]
  rfl

theorem Represents.exec_gkfsOpendir (represents : Represents deployment fs cluster) (plain : Plain path)
    (named : fs path = some (.directory permissions)) (fits : Fits deployment fs path) :
    (Cluster.server deployment pools).exec (gkfsOpendir client path) cluster =
      (some (.ok (gathered deployment cluster path)), cluster) := by
  obtain ⟨md, asked, mode, _⟩ := @Represents.exec_getMetadata deployment pools client fs _ cluster _ represents named false
  have directory : Mode.isDir md.mode = true := by rw [mode, Node.isDir_mode]; rfl
  rw [gkfsOpendir, Program.bind_eq, Server.exec_bind, asked]
  simp only [directory, Bool.not_true, Bool.false_eq_true, if_false, Program.bind_eq, Server.exec_bind,
    represents.exec_forwardGetDirents plain fits, Program.pure_eq, Server.exec_pure]

theorem Represents.opendir (represents : Represents deployment fs cluster) (caller : Caller deployment) (plain : Plain path)
    (admissible : Call.opendir.Admissible deployment fs path) : Simulates caller fs path .opendir cluster := by
  cases named : fs path with
  | none =>
    have ran : (Cluster.server deployment caller.pools).exec (gkfsOpendir caller.client path) cluster =
        (some (.error Errno.enoent), cluster) := by
      rw [gkfsOpendir, Program.bind_eq, Server.exec_bind, exec_getMetadata_missing represents.healthy.up (represents.missing named)]
      rfl
    exact represents.refused (exec_reply _ ran) (by simp only [FileSystem.perform, named])
  | some node =>
    cases node with
    | file permissions content =>
      obtain ⟨md, asked, mode, _⟩ := @Represents.exec_getMetadata deployment caller.pools caller.client fs _ cluster _ represents named
        false
      have other : Mode.isDir md.mode = false := by rw [mode, Node.isDir_mode]; rfl
      have ran : (Cluster.server deployment caller.pools).exec (gkfsOpendir caller.client path) cluster =
          (some (.error Errno.enotdir), cluster) := by
        rw [gkfsOpendir, Program.bind_eq, Server.exec_bind, asked]
        simp only [other, Bool.not_false, if_true, Program.pure_eq, Server.exec_pure]
      exact represents.refused (exec_reply _ ran) (by simp only [FileSystem.perform, named])
    | directory permissions =>
      have ran := @Represents.exec_gkfsOpendir deployment caller.pools caller.client fs path cluster permissions represents plain named
        (admissible permissions named)
      refine ⟨_, cluster, exec_reply _ ran, ?_, ?_⟩
      · simp only [FileSystem.perform, named]
        exact represents.lists plain
      · simpa only [FileSystem.perform, named] using represents

theorem Represents.mkdir (represents : Represents deployment fs cluster) (caller : Caller deployment) (plain : Plain path)
    (admissible : (Call.mkdir permissions).Admissible deployment fs path) : Simulates caller fs path (.mkdir permissions) cluster := by
  have typed : nodeMode (permissions.bits ||| Mode.ifdir) = .ok (Node.directory permissions).mode :=
    (ExclusiveCreate.nodeMode_or_type permissions.plain (.inr rfl)).1
  obtain ⟨result, after, ran, agrees, rest⟩ := @Represents.createNode deployment caller.pools caller.client fs path cluster represents plain
    admissible (.directory permissions) rfl _ typed
  exact ⟨_, after, exec_reply _ ran, agrees, rest⟩

/-- Nothing is left of a path whose hosts have been asked to remove it. -/
theorem Represents.removed (represents : Represents deployment fs cluster) (plain : Plain path) (notRoot : path ≠ ['/']) {hosts : List Nat}
    {after : Cluster} (owner : deployment.metadataHost path ∈ hosts) (removed : Removed path hosts cluster after) (healthy : Healthy after)
    (elsewhere : Elsewhere path cluster after)
    (emptied : ∀ backend c, stored (after.storage backend) (dirName path) c =
      if backend ∈ hosts.map deployment.backend then none else stored (cluster.storage backend) (dirName path) c)
    (reached : ∀ c, c * chunksize < (contentAt fs path).length → deployment.chunkBackend path c ∈ hosts.map deployment.backend) :
    Represents deployment (Function.update fs path none) after := by
  refine represents.change plain notRoot healthy (fun host key other => ?_) ((removed _ _).trans (if_pos ⟨rfl, owner⟩)) elsewhere
    fun x => ?_
  · rw [removed]
    split
    next here =>
      obtain ⟨rfl, _⟩ := here
      rw [AList.lookup_eq_none.mpr]
      intro member
      exact (other.resolve_left fun different => different rfl) ((represents.keys host key member).2 notRoot)
    next => rfl
  · rw [byteAt, held, emptied]
    split
    next => rfl
    next missed =>
      refine (represents.bytes path plain x).trans ?_
      rw [Option.elim_none, List.getElem?_nil, List.getElem?_eq_none_iff]
      by_contra inside
      refine missed (reached _ ?_)
      exact Nat.lt_of_le_of_lt (Nat.div_mul_le_self x chunksize) (Nat.lt_of_not_le inside)

theorem Represents.unlink (represents : Represents deployment fs cluster) (caller : Caller deployment) (plain : Plain path)
    (admissible : Call.unlink.Admissible deployment fs path) : Simulates caller fs path .unlink cluster := by
  cases named : fs path with
  | none =>
    have ran : (Cluster.server deployment caller.pools).exec (gkfsRemove caller.client path) cluster =
        (some (.error Errno.enoent), cluster) := by
      rw [gkfsRemove, Program.bind_eq, Server.exec_bind, exec_getMetadata_missing represents.healthy.up (represents.missing named)]
      rfl
    exact represents.refused (exec_reply _ ran) (by simp only [FileSystem.perform, named])
  | some node =>
    cases node with
    | directory permissions => exact absurd named (admissible permissions)
    | file permissions content =>
      have file := represents.isFilePath plain named
      obtain ⟨md, found, mode, size, fits⟩ := represents.found named
      obtain ⟨after, ran, removed, healthy, elsewhere, emptied⟩ := @exec_gkfsRemove_done deployment caller.client path caller.pools cluster
        plain.canonical.isAbsolute file.notRoot represents.healthy md found
      refine (represents.removed plain file.notRoot
        (metadataHost_mem_removeTargets caller.client path _ _) removed healthy elsewhere emptied
        fun c inside => ?_).succeeded (exec_reply _ ran) (by simp only [FileSystem.perform, named])
      rw [contentAt, named, Option.elim_some, Node.content] at inside
      rw [Node.content] at size fits
      have number : md.size.toNat = content.length := by rw [size, Words.toNat_ofNat (by omega)]
      have sized : md.size ≠ 0 := by
        intro zero
        rw [zero, show (0 : Word).toNat = 0 from rfl] at number
        omega
      have regular : Mode.isReg md.mode = true := by rw [mode, Node.isReg_mode]; rfl
      rw [← caller.client.backend_locateData, regular, bne_iff_ne.mpr sized]
      exact List.mem_map_of_mem (RemovedData.locateData_mem_removeTargets (by omega) (by omega))

theorem Represents.rmdir (represents : Represents deployment fs cluster) (caller : Caller deployment) (plain : Plain path)
    (admissible : Call.rmdir.Admissible deployment fs path) : Simulates caller fs path .rmdir cluster := by
  cases named : fs path with
  | none =>
    have ran : (Cluster.server deployment caller.pools).exec (gkfsRmdir caller.client path) cluster =
        (some (.error Errno.enoent), cluster) := by
      rw [gkfsRmdir, Program.bind_eq, Server.exec_bind, exec_getMetadata_missing represents.healthy.up (represents.missing named)]
      rfl
    exact represents.refused (exec_reply _ ran) (by simp only [FileSystem.perform, FileSystem.rmdir, named])
  | some node =>
    obtain ⟨md, asked, mode, _⟩ := @Represents.exec_getMetadata deployment caller.pools caller.client fs _ cluster _ represents named false
    cases node with
    | file permissions content =>
      have other : Mode.isDir md.mode = false := by rw [mode, Node.isDir_mode]; rfl
      have ran : (Cluster.server deployment caller.pools).exec (gkfsRmdir caller.client path) cluster =
          (some (.error Errno.enotdir), cluster) := by
        rw [gkfsRmdir, Program.bind_eq, Server.exec_bind, asked]
        simp only [other, Bool.not_false, if_true, Program.pure_eq, Server.exec_pure]
      exact represents.refused (exec_reply _ ran) (by simp only [FileSystem.perform, FileSystem.rmdir, named])
    | directory permissions =>
      have directory : Mode.isDir md.mode = true := by rw [mode, Node.isDir_mode]; rfl
      have lists := represents.lists plain
      have listed := @Represents.exec_forwardGetDirents deployment caller.pools caller.client fs path cluster represents plain
        (admissible.2 permissions named)
      have started : (Cluster.server deployment caller.pools).exec (gkfsRmdir caller.client path) cluster =
          if (gathered deployment cluster path).length ≠ 0 then (some (.error Errno.enotempty), cluster)
          else (Cluster.server deployment caller.pools).exec (forwardRemove caller.client path true 0) cluster := by
        rw [gkfsRmdir, Program.bind_eq, Server.exec_bind, asked]
        simp only [directory, Bool.not_true, Bool.false_eq_true, if_false, Program.bind_eq, Server.exec_bind, listed]
        split
        next => rfl
        next => rfl
      have empty : (gathered deployment cluster path).length ≠ 0 ↔ ∃ name, (fs.child path name).isSome := by
        constructor
        · intro some_entry
          obtain ⟨⟨name, flag⟩, member⟩ := List.exists_mem_of_ne_nil _ (mt List.length_eq_zero_iff.mpr some_entry)
          obtain ⟨node, named, _⟩ := Option.map_eq_some_iff.mp ((lists.exact name flag).mp member)
          exact ⟨name, Option.isSome_iff_exists.mpr ⟨node, named⟩⟩
        · rintro ⟨name, present⟩
          obtain ⟨node, named⟩ := Option.isSome_iff_exists.mp present
          have member := (lists.exact name node.isDirectory).mpr (by rw [named, Option.map_some])
          exact Nat.ne_of_gt (List.length_pos_of_mem member)
      by_cases occupied : ∃ name, (fs.child path name).isSome
      · exact represents.refused (exec_reply _ (started.trans (if_pos (empty.mpr occupied))))
          (by simp only [FileSystem.perform, FileSystem.rmdir, named, occupied, if_true])
      · have only : removeTargets caller.client path true 0 = [deployment.metadataHost path] := by
          rw [removeTargets, if_pos rfl, caller.client.locateFileMetadata_eq]
        obtain ⟨answered, healthy, elsewhere, emptied⟩ := @handleAll_removeNode deployment path caller.pools cluster
          plain.canonical.isAbsolute admissible.1 [deployment.metadataHost path] represents.healthy
        have ran : (Cluster.server deployment caller.pools).exec (forwardRemove caller.client path true 0) cluster =
            (some (.ok ()), ((Cluster.server deployment caller.pools).handleAll
              ([deployment.metadataHost path].map fun host => (host, Request.remove path)) cluster).2) := by
          rw [forwardRemove, only, Server.exec_post, answered]
          rfl
        refine (represents.removed plain admissible.1 List.mem_cons_self
          (removed_handleAll path _ represents.healthy.up) healthy elsewhere emptied
          fun c inside => ?_).succeeded (exec_reply _ (started.trans ((if_neg (empty.not.mpr occupied)).trans ran)))
          (by simp only [FileSystem.perform, FileSystem.rmdir, named, occupied, if_false])
        rw [contentAt, named] at inside
        exact absurd inside (Nat.not_lt_zero _)

section Open
variable {flags : OpenFlags}

theorem gkfsOpen_unsupported (mode : Mode) (unsupported : (flags.oPath || flags.oAppend) = true) :
    gkfsOpen client path mode flags = .pure (.error Errno.enotsup) := by
  rw [gkfsOpen]
  cases oPath : flags.oPath with
  | true => rfl
  | false =>
    rw [oPath, Bool.false_or] at unsupported
    rw [unsupported]
    rfl

/-- An open of a path that is not there creates a file or fails. -/
theorem Represents.openMissing (represents : Represents deployment fs cluster) (caller : Caller deployment) (plain : Plain path)
    (supported : (flags.oPath || flags.oAppend) = false) (absent : fs path = none) :
    Simulates caller fs path (.open permissions flags) cluster := by
  have flagged := Bool.or_eq_false_iff.mp supported
  have started : (Cluster.server deployment caller.pools).exec (gkfsOpen caller.client path permissions.bits flags) cluster =
      if !flags.oCreat then (some (.error Errno.enoent), cluster)
      else if flags.oDirectory then (some (.error Errno.enotsup), cluster)
      else (Cluster.server deployment caller.pools).exec (gkfsCreate caller.client path (permissions.bits ||| Mode.ifreg)) cluster := by
    rw [gkfsOpen, flagged.1, flagged.2]
    simp only [Bool.false_eq_true, if_false, Program.bind_eq, Server.exec_bind,
      exec_getMetadata_missing represents.healthy.up (represents.missing absent), ne_eq, not_true_eq_false]
    cases flags.oCreat with
    | false => rfl
    | true => cases flags.oDirectory <;> rfl
  have specified : fs.perform path (.open permissions flags) =
      if !flags.oCreat then (.error Errno.enoent, fs)
      else if flags.oDirectory then (.error Errno.enotsup, fs)
      else fs.create path (.file permissions []) := by
    simp only [FileSystem.perform, FileSystem.openNode, supported, Bool.false_eq_true, if_false, absent]
  cases create : flags.oCreat with
  | false =>
    rw [create] at started specified
    exact represents.refused (exec_reply _ started) specified
  | true =>
    cases directory : flags.oDirectory with
    | true =>
      rw [create, directory] at started specified
      exact represents.refused (exec_reply _ started) specified
    | false =>
      rw [create, directory] at started specified
      obtain ⟨result, after, ran, agrees, rest⟩ := @Represents.createNode deployment caller.pools caller.client fs path cluster represents
        plain absent (.file permissions []) rfl _ (ExclusiveCreate.nodeMode_or_type permissions.plain (.inl rfl)).1
      rw [Simulates, specified]
      exact ⟨_, after, exec_reply _ (started.trans ran), agrees, rest⟩

theorem Represents.exec_gkfsOpen (represents : Represents deployment fs cluster) {mode : Mode}
    (supported : (flags.oPath || flags.oAppend) = false) {node : Node} (named : fs path = some node) :
    (Cluster.server deployment pools).exec (gkfsOpen client path mode flags) cluster =
      (Cluster.server deployment pools).exec
        (if flags.oExcl then .pure (.error Errno.eexist)
        else if node.isDirectory then (gkfsOpendir client path).bind fun opened => .pure (opened.map fun _ => ())
        else if flags.oTrunc && (flags.oRdwr || flags.oWronly) then gkfsTruncateTo client path (.ofNat 64 node.content.length) 0
        else .pure (.ok ())) cluster := by
  have flagged := Bool.or_eq_false_iff.mp supported
  obtain ⟨md, asked, mode, size⟩ := @Represents.exec_getMetadata deployment pools client fs _ cluster _ represents named false
  rw [gkfsOpen, flagged.1, flagged.2]
  simp only [Bool.false_eq_true, if_false, Program.bind_eq, Server.exec_bind, asked, mode, size, node.isLnk_mode, node.isDir_mode,
    node.isReg_mode, Program.pure_eq]
  cases node.isDirectory with
  | true => rfl
  | false => simp only [Bool.not_false, assertClient_true, Bool.false_eq_true, if_false, Program.pure_bind]

/-- An open of a path that is there truncates a file if it is told to. -/
theorem Represents.openFound (represents : Represents deployment fs cluster) (caller : Caller deployment) (plain : Plain path)
    (supported : (flags.oPath || flags.oAppend) = false) {node : Node} (named : fs path = some node)
    (admissible : (Call.open permissions flags).Admissible deployment fs path) :
    Simulates caller fs path (.open permissions flags) cluster := by
  have started := @Represents.exec_gkfsOpen deployment caller.pools caller.client fs path cluster flags represents permissions.bits
      supported
    node named
  rw [Call.Admissible, named] at admissible
  cases exclusive : flags.oExcl with
  | true =>
    rw [exclusive, if_pos rfl] at started
    exact represents.refused (exec_reply _ started)
      (by simp only [FileSystem.perform, FileSystem.openNode, supported, Bool.false_eq_true, if_false, named, exclusive, if_true])
  | false =>
    rw [exclusive, if_neg Bool.false_ne_true] at started
    cases node with
    | directory own =>
      rw [Node.isDirectory, if_pos rfl, Server.exec_bind, represents.exec_gkfsOpendir plain named admissible] at started
      exact represents.succeeded (exec_reply _ started)
        (by simp only [FileSystem.perform, FileSystem.openNode, supported, Bool.false_eq_true, if_false, named, exclusive])
    | file own content =>
      rw [Node.isDirectory, if_neg Bool.false_ne_true] at started
      by_cases truncating : (flags.oTrunc && (flags.oRdwr || flags.oWronly)) = true
      · rw [if_pos truncating] at started
        obtain ⟨after, ran, rest⟩ := @Represents.cut deployment caller.pools caller.client fs path cluster own content represents plain
          named 0 (Nat.zero_le _) (.inr (.inr ⟨rfl, admissible truncating⟩))
        exact rest.succeeded (exec_reply _ (started.trans ran))
          (by simp only [FileSystem.perform, FileSystem.openNode, supported, Bool.false_eq_true, if_false, named, exclusive, truncating,
            if_true, List.take_zero])
      · rw [if_neg truncating] at started
        exact represents.succeeded (exec_reply _ started)
          (by simp only [FileSystem.perform, FileSystem.openNode, supported, Bool.false_eq_true, if_false, named, exclusive, truncating])

theorem Represents.open (represents : Represents deployment fs cluster) (caller : Caller deployment) (plain : Plain path)
    (admissible : (Call.open permissions flags).Admissible deployment fs path) :
    Simulates caller fs path (.open permissions flags) cluster := by
  by_cases unsupported : (flags.oPath || flags.oAppend) = true
  · have ran : (Cluster.server deployment caller.pools).exec (gkfsOpen caller.client path permissions.bits flags) cluster =
        (some (.error Errno.enotsup), cluster) := by
      rw [gkfsOpen_unsupported _ unsupported]
      rfl
    exact represents.refused (exec_reply _ ran) (by simp only [FileSystem.perform, FileSystem.openNode, unsupported, if_true])
  · have supported := Bool.eq_false_iff.mpr unsupported
    cases named : fs path with
    | none => exact represents.openMissing caller plain supported named
    | some node => exact represents.openFound caller plain supported named admissible

end Open

end Directory

/-- Every admissible call of any client is simulated. -/
theorem Represents.call (represents : Represents deployment fs cluster) (caller : Caller deployment) (plain : Plain path) {call : Call}
    (admissible : call.Admissible deployment fs path) : Simulates caller fs path call cluster := by
  cases call with
  | «open» permissions flags => exact represents.open caller plain admissible
  | mkdir permissions => exact represents.mkdir caller plain admissible
  | stat => exact represents.stat caller path
  | pwrite data offset => exact represents.pwrite caller plain admissible
  | pread buf offset => exact represents.pread caller plain admissible
  | truncate length => exact represents.truncate caller plain admissible
  | opendir => exact represents.opendir caller plain admissible
  | unlink => exact represents.unlink caller plain admissible
  | rmdir => exact represents.rmdir caller plain admissible

end Calls

/-- The states that admissible calls of any clients lead to from empty hosts, with the file
system that is specified for them. Meanwhile RocksDB may merge operands of any key. -/
inductive Run (deployment : Deployment) : Cluster → FileSystem → Prop where
  | fresh : Run deployment .fresh .initial
  | call {cluster : Cluster} {fs : FileSystem} (before : Run deployment cluster fs) (caller : Caller deployment) {path : Str}
      (plain : Plain path) {call : Call} (admissible : call.Admissible deployment fs path) :
      Run deployment (caller.exec path call cluster).2 (fs.perform path call).2
  | merge {cluster : Cluster} {fs : FileSystem} (before : Run deployment cluster fs) (host : Nat) (key : Str) (count : Nat) :
      Run deployment (cluster.setDb host ((cluster.mdb host).collapse .default deployment.ndebug key count)) fs

theorem Run.represents {deployment : Deployment} {cluster : Cluster} {fs : FileSystem} (run : Run deployment cluster fs) :
    Represents deployment fs cluster := by
  induction run with
  | fresh => exact represents_fresh deployment
  | call _ caller plain admissible ih =>
    obtain ⟨result, after, ran, _, represents⟩ := ih.call caller plain admissible
    rw [ran]
    exact represents
  | merge _ host key count ih => exact ih.collapse host key count

private def firstCaller : Caller (.pair List.length) :=
  ⟨.first _, ⟨[], 0, 0, false, false, false, false, false⟩, fun _ => 0, fun _ => frugalPool, fun _ => frugalPool_complete,
    fun _ => frugalPool_answers⟩

end GekkoFwd.Proofs.FileSystemRefinement
