import GekkoFwd.Proofs.ReadAfterWrite
import GekkoFwd.Proofs.WriteLimits

/-! What a removal leaves behind. The client derives the hosts that it asks from the
size of the file; chunks and entries are lost from sight where no request arrives. -/

namespace GekkoFwd.Proofs.RemovedData
open RpcProgram ClientOps ClientSpec StorageSpec MergeLaws ChunkStorage LocalFs ChunkPartition DataPath WriteOutcome ReadAfterWrite
  WriteLimits

variable {deployment : Deployment} {client : Client deployment} {path : Str} {pools : Nat → IoPool} {cluster : Cluster}

/-- One file as creations and writes leave it: its entry with the host of the path, and
every chunk below the recorded size with the host of the chunk. -/
structure Placed (client : Client deployment) (cluster : Cluster) (path : Str) (md : Metadata) : Prop where
  fields : Parsed deployment.ndebug md
  recorded : (cluster.mdb (deployment.metadataHost path)).get .default deployment.ndebug path = .ok (md.serialize .default)
  elsewhere : ∀ host, host ≠ deployment.metadataHost path → (cluster.mdb host).lookup path = none
  chunks : ∀ host chunkId content, stored (cluster.storage host) (dirName path) chunkId = some content →
    host = client.locateData path chunkId ∧ chunkId * chunksize < md.size.toNat

/-- The chunks of a path have been removed on the given hosts. -/
def Emptied (path : Str) (hosts : List Nat) (before after : Cluster) : Prop :=
  ∀ host chunkId, stored (after.storage host) (dirName path) chunkId =
    if host ∈ hosts then none else stored (before.storage host) (dirName path) chunkId

theorem stored_removeAll (storage : Storage) (dir : Str) (chunkId : Nat) : stored (storage.removeAll [dir]) dir chunkId = none := by
  have below : [dir] <+: [dir, DecText.toText chunkId] := List.prefix_append _ _
  rw [stored, FileTree.get_removeAll, if_pos below]

theorem rpcSrvRemove_absolute (rooted : Path.isAbsolute path = true) (notRoot : path ≠ ['/']) (ndebug : Bool) (db : MetadataDb)
    (storage : Storage) : Daemon.rpcSrvRemove ndebug path db storage = (some 0, db.remove path, storage.removeAll [dirName path]) := by
  rw [Daemon.rpcSrvRemove, destroyChunkSpace, chunkDir_absolute rooted notRoot]

theorem serve_remove (plain : deployment.forwarding = false) (rooted : Path.isAbsolute path = true) (notRoot : path ≠ ['/']) (host : Nat) :
    Cluster.serve deployment pools host (.remove path) cluster =
      (some 0, (cluster.setDb host ((cluster.mdb host).remove path)).setStore host ((cluster.storage host).removeAll [dirName path])) := by
  simp only [Cluster.serve, Deployment.backend, plain, Bool.false_eq_true, if_false, rpcSrvRemove_absolute rooted notRoot]

/-- A batch without an error has been answered by everybody. -/
theorem lastError_ok {reply : Option Int} {replies : List (Option Int)} (succeeded : lastError (reply :: replies) = .ok ()) :
    reply = some 0 ∧ lastError replies = .ok () := by
  rw [lastError.eq_def] at succeeded
  dsimp only at succeeded
  split at succeeded
  next => cases succeeded
  next => cases succeeded
  next err rest =>
    split at succeeded
    next => cases succeeded
    next zero => exact ⟨by rw [not_not.mp zero], rest⟩

/-- The hosts that have answered keep nothing of the path. -/
theorem emptied_of_answered (plain : deployment.forwarding = false) (rooted : Path.isAbsolute path = true) (notRoot : path ≠ ['/'])
    (hosts : List Nat) {cluster : Cluster}
    (succeeded : lastError ((Cluster.server deployment pools).handleAll (hosts.map fun host => (host, Request.remove path)) cluster).1 =
      .ok ()) :
    Removed path hosts cluster
        ((Cluster.server deployment pools).handleAll (hosts.map fun host => (host, Request.remove path)) cluster).2 ∧
      Emptied path hosts cluster
        ((Cluster.server deployment pools).handleAll (hosts.map fun host => (host, Request.remove path)) cluster).2 := by
  induction hosts generalizing cluster with
  | nil => exact ⟨fun host key => by simp [Server.handleAll], fun host chunkId => by simp [Server.handleAll]⟩
  | cons first hosts ih =>
    obtain ⟨answered, succeeded⟩ := lastError_ok succeeded
    have here : (Cluster.server deployment pools).handle first (.remove path) cluster = _ :=
      (Cluster.handle_of_answered answered).trans (serve_remove plain rooted notRoot first)
    obtain ⟨removed, emptied⟩ := ih succeeded
    refine ⟨?_, fun host chunkId => (emptied host chunkId).trans ?_⟩
    · refine Removed.cons ?_ removed
      rw [show (Cluster.server deployment pools).handle first (.remove path) cluster = _ from Cluster.handle_of_answered answered]
      exact removed_serve first path cluster
    · rw [here, Cluster.storage_setStore, Cluster.storage_setDb]
      by_cases same : host = first
      · rw [same, Function.update_self, stored_removeAll]
        simp
      · rw [Function.update_of_ne same]
        simp [same]

theorem lastError_handleAll_remove (plain : deployment.forwarding = false) (rooted : Path.isAbsolute path = true) (notRoot : path ≠ ['/'])
    (hosts : List Nat) {cluster : Cluster} (up : cluster.Up) :
    lastError ((Cluster.server deployment pools).handleAll (hosts.map fun host => (host, Request.remove path)) cluster).1 = .ok () := by
  induction hosts generalizing cluster with
  | nil => rfl
  | cons first hosts ih =>
    have here : (Cluster.server deployment pools).handle first (.remove path) cluster = _ :=
      Cluster.handle_of_some (up first) (serve_remove plain rooted notRoot first)
    rw [List.map_cons, Server.handleAll, here]
    simp only [lastError, ih (show Cluster.Up (Cluster.setStore (Cluster.setDb ..) ..) from up), ne_eq, not_true_eq_false, if_false]

theorem toNat_quotient {size : Word} (small : size.toNat < 2 ^ 63) :
    (BitVec.ofInt 64 (size.toInt.tdiv chunksize)).toNat = size.toNat / chunksize := by
  rw [BitVec.toInt_eq_toNat_of_lt (by omega), ← Int.ofNat_tdiv, BitVec.ofInt_natCast, BitVec.toNat_ofNat]
  exact Nat.mod_eq_of_lt (Nat.lt_of_le_of_lt (Nat.div_le_self _ _) (by omega))

/-- The host of a chunk below the size is asked, by a broadcast or because the chunks are
gone through up to the one that the size lies in. -/
theorem locateData_mem_removeTargets {size : Word} (small : size.toNat < 2 ^ 63) {chunkId : Nat}
    (below : chunkId * chunksize < size.toNat) : client.locateData path chunkId ∈ removeTargets client path false size := by
  rw [removeTargets, if_neg (by decide), toNat_quotient small]
  split
  next =>
    refine List.mem_cons_of_mem _ (List.mem_map_of_mem (List.mem_range.mpr (Nat.lt_succ_of_le ?_)))
    exact (Nat.le_div_iff_mul_le (by decide)).mpr (Nat.le_of_lt below)
  next => exact List.mem_range.mpr (client.locateData_lt path chunkId)

/-- The hosts that `gkfs_remove` asks once it has read the entry. -/
def asked (client : Client deployment) (path : Str) (md : Metadata) : List Nat :=
  removeTargets client path (!(Mode.isReg md.mode && md.size != 0)) md.size

theorem exec_gkfsRemove_ok (plain : deployment.forwarding = false) (rooted : Path.isAbsolute path = true) (notRoot : path ≠ ['/'])
    {after : Cluster} (ran : (Cluster.server deployment pools).exec (gkfsRemove client path) cluster = (some (.ok ()), after)) :
    ∃ md, entry deployment cluster path = .ok md ∧
      Removed path (asked client path md) cluster after ∧ Emptied path (asked client path md) cluster after := by
  obtain ⟨answer, between, read, rest⟩ := Server.exec_bind_eq_some _ ran
  cases answer with
  | error errno => cases rest
  | ok md =>
    obtain ⟨rfl, found⟩ := entry_of_getMetadata read
    obtain ⟨succeeded, rfl⟩ := Prod.mk.inj rest
    exact ⟨md, found, emptied_of_answered plain rooted notRoot _ (Option.some.inj succeeded)⟩

theorem gkfsRemove_succeeds (plain : deployment.forwarding = false) (rooted : Path.isAbsolute path = true) (notRoot : path ≠ ['/'])
    (up : cluster.Up) {md : Metadata} (found : entry deployment cluster path = .ok md) :
    ((Cluster.server deployment pools).exec (gkfsRemove client path) cluster).1 = some (.ok ()) := by
  rw [gkfsRemove, Program.bind_eq, Server.exec_bind, exec_getMetadata_ok up found rfl,
    ← @lastError_handleAll_remove deployment path pools plain rooted notRoot (asked client path md) cluster up]
  rfl

namespace Placed
variable {md : Metadata} (placed : Placed client cluster path md)
include placed

theorem entry : ClientSpec.entry deployment cluster path = if md.size.toNat < 2 ^ 63 then .ok md else .error .outOfRange := by
  rw [ClientSpec.entry, placed.recorded]
  simp only [bind, Except.bind]
  exact parse_serialize_limit placed.fields

/-- A removal asks every host that has a chunk, in each of the three ways to choose them. -/
theorem owner_mem_asked (data : Mode.isReg md.mode ∨ md.size = 0) (small : md.size.toNat < 2 ^ 63) {host chunkId : Nat}
    {content : List Byte} (found : stored (cluster.storage host) (dirName path) chunkId = some content) :
    host ∈ asked client path md := by
  obtain ⟨rfl, below⟩ := placed.chunks host chunkId content found
  -- a chunk below the size excludes the removal of the entry alone
  have sized : md.size ≠ 0 := by
    intro empty
    rw [empty] at below
    exact Nat.not_lt_zero _ below
  rw [asked, data.resolve_right sized, bne_iff_ne.mpr sized]
  exact locateData_mem_removeTargets small below

theorem nothing_left (data : Mode.isReg md.mode ∨ md.size = 0) (small : md.size.toNat < 2 ^ 63) {after : Cluster}
    (removed : Removed path (asked client path md) cluster after) (emptied : Emptied path (asked client path md) cluster after)
    (host : Nat) : (after.mdb host).lookup path = none ∧ ∀ chunkId, stored (after.storage host) (dirName path) chunkId = none := by
  refine ⟨?_, fun chunkId => ?_⟩
  · rw [removed host path]
    split
    next => rfl
    next missed =>
      refine placed.elsewhere host fun here => missed ⟨rfl, ?_⟩
      rw [here]
      exact metadataHost_mem_removeTargets client path _ _
  · rw [emptied host chunkId]
    split
    next => rfl
    next missed =>
      cases found : stored (cluster.storage host) (dirName path) chunkId with
      | none => rfl
      | some content => exact absurd (placed.owner_mem_asked data small found) missed

end Placed

theorem placed_of_created {mode : Mode} {after : Cluster} (created : Created deployment path mode cluster after)
    (absent : ∀ host, (cluster.mdb host).lookup path = none)
    (empty : ∀ host chunkId, stored (cluster.storage host) (dirName path) chunkId = none) :
    Placed client after path (Metadata.ofMode mode) := by
  subst created
  refine ⟨⟨⟨rfl, rfl, rfl, rfl, rfl⟩, Bool.or_true _⟩, ?_, fun host other => ?_, fun host chunkId content found => ?_⟩
  · rw [Cluster.mdb_setDb, Function.update_self, MetadataDb.get,
      MetadataDb.cell_of_lookup (by rw [MetadataDb.lookup_merge, if_pos rfl]), MetadataDb.cell, absent]
    exact (@Holds.created _ Signed _ (recorded_ofMode mode)).value
  · rw [Cluster.mdb_setDb, Function.update_of_ne other]
    exact absent host
  · rw [Cluster.storage_setDb, empty] at found
    cases found

/-- A write announces the end of its range before it stores chunks with their hosts. -/
theorem Placed.write (plain : deployment.forwarding = false) (file : Storable path) (healthy : Healthy cluster) {md : Metadata}
    (placed : Placed client cluster path md) (small : md.size.toNat < 2 ^ 63) (call : WriteCall deployment)
    (overwrites : call.appendFlag = false) :
    ∃ size : Word, size.toNat = max md.size.toNat (call.offset + call.data.length) ∧
      Placed client (call.exec path cluster) path { md with size } := by
  have read := placed.entry
  rw [if_pos small] at read
  have db := @mdb_gkfsPwrite deployment call.pools cluster call.client path call.appendFlag call.data (.ofNat 64 call.offset)
    (healthy.up _)
  rw [overwrites] at db
  have bounded := call.bounded
  rw [chunksize] at bounded
  have ending : (BitVec.ofNat 64 call.data.length + BitVec.ofNat 64 call.offset : Word).toNat = call.offset + call.data.length := by
    rw [← BitVec.ofNat_add, Nat.add_comm]
    exact Words.toNat_ofNat (by omega)
  have value := Words.toNat_larger md.size (.ofNat 64 call.data.length + .ofNat 64 call.offset)
  rw [ending] at value
  refine ⟨_, value, ⟨placed.fields.unwritten, placed.fields.target⟩, ?_, fun host other => ?_, fun host chunkId content found => ?_⟩
  · refine get_increaseSize read ?_
    rw [WriteCall.exec, Write.exec, Write.run, overwrites, db, Function.update_self]
  · rw [WriteCall.exec, Write.exec, Write.run, overwrites, db, Function.update_of_ne other]
    exact placed.elsewhere host other
  · obtain ⟨_, wrote⟩ := call.exec_spec file healthy
    rw [wrote] at found
    split at found
    next touched =>
      have owner := client.backend_locateData path chunkId
      rw [touched.2.2, Deployment.backend, plain, if_neg Bool.false_ne_true] at owner
      have last := (Nat.le_div_iff_mul_le call.range.split.block_pos).mp touched.2.1.2
      have positive := List.length_pos_iff.mpr call.some_data
      simp only [IoRange.split, Write.range] at last
      exact ⟨owner.symm, by rw [value]; omega⟩
    next =>
      obtain ⟨owner, below⟩ := placed.chunks host chunkId content found
      exact ⟨owner, Nat.lt_of_lt_of_le below (by rw [value]; exact Nat.le_max_left _ _)⟩

/-- The place of entry and chunks is kept by every history of writes. -/
theorem Placed.writes (plain : deployment.forwarding = false) (file : Storable path) (healthy : Healthy cluster) {md : Metadata}
    (placed : Placed client cluster path md) (small : md.size.toNat < 2 ^ 63) (calls : List (WriteCall deployment))
    (overwrite : ∀ call ∈ calls, call.appendFlag = false) :
    ∃ size : Word, size.toNat < 2 ^ 63 ∧ Placed client (calls.foldl (WriteCall.exec path) cluster) path { md with size } := by
  induction calls generalizing cluster md with
  | nil => exact ⟨md.size, small, placed⟩
  | cons call calls ih =>
    obtain ⟨size, value, after⟩ := placed.write plain file healthy small call (overwrite call List.mem_cons_self)
    have bounded := call.bounded
    rw [chunksize] at bounded
    exact @ih _ (call.exec_spec file healthy).1 { md with size } after (show size.toNat < 2 ^ 63 by omega)
      fun later member => overwrite later (List.mem_cons_of_mem _ member)

/-- A removal that succeeds leaves neither an entry nor a chunk of the path on any host,
and it succeeds whenever the daemons serve and the recorded size can be read. -/
theorem removal_leaves_nothing (plain : deployment.forwarding = false) (client : Client deployment) (pools : Nat → IoPool)
    (rooted : Path.isAbsolute path = true) (notRoot : path ≠ ['/']) {md : Metadata} (data : Mode.isReg md.mode ∨ md.size = 0)
    (placed : Placed client cluster path md) :
    (cluster.Up → md.size.toNat < 2 ^ 63 →
      ((Cluster.server deployment pools).exec (gkfsRemove client path) cluster).1 = some (.ok ())) ∧
    ∀ after, (Cluster.server deployment pools).exec (gkfsRemove client path) cluster = (some (.ok ()), after) →
      ∀ host, (after.mdb host).lookup path = none ∧ ∀ chunkId, stored (after.storage host) (dirName path) chunkId = none := by
  have read := placed.entry
  refine ⟨fun up small => ?_, fun after ran => ?_⟩
  · rw [if_pos small] at read
    exact gkfsRemove_succeeds plain rooted notRoot up read
  · obtain ⟨other, found, removed, emptied⟩ := exec_gkfsRemove_ok plain rooted notRoot ran
    rw [found] at read
    split at read
    next small =>
      cases read
      exact placed.nothing_left data small removed emptied
    next => cases read

theorem placed_withFile : Placed (.first (.pair List.length)) withFile "/file".toList (Metadata.ofMode (Mode.ifreg ||| 0o644)) := by
  have returned : ((Cluster.server (.pair List.length) fun _ => default).exec
      (gkfsCreate (.first (.pair List.length)) "/file".toList 0o644) .fresh).1 = some (.ok ()) := by decide +kernel
  have ran : (Cluster.server (.pair List.length) fun _ => default).exec
      (gkfsCreate (.first (.pair List.length)) "/file".toList 0o644) .fresh = (some (.ok ()), withFile) := Prod.ext returned rfl
  have up : withFile.Up := Cluster.up_fresh
  obtain ⟨_, type, _, typed, _, _, created⟩ | ⟨⟨_, failed⟩, _⟩ :=
    exec_gkfsCreate ((Cluster.exec_of_up (by rwa [ran])).symm.trans ran)
  · cases typed
    exact placed_of_created created (fun _ => rfl) fun host chunkId => stored_fresh host _ chunkId
  · cases failed

/-- Host 0 has the chunk and host 1 the entry; both are asked. -/
theorem removal_leaves_nothing_far_byte :
    stored ((farByte.exec "/file".toList withFile).storage 0) "file".toList 1 = some [7] ∧
    ∃ after, (Cluster.server (.pair List.length) fun _ => default).exec (gkfsRemove (.first (.pair List.length)) "/file".toList)
        (farByte.exec "/file".toList withFile) = (some (.ok ()), after) ∧
      ∀ host, (after.mdb host).lookup "/file".toList = none ∧ ∀ chunkId, stored (after.storage host) "file".toList chunkId = none := by
  have healthy : Healthy withFile := ⟨healthy_fresh.stores, healthy_fresh.up⟩
  obtain ⟨size, small, placed⟩ := placed_withFile.writes rfl storable_file healthy (by decide) [farByte] (by simp [farByte])
  obtain ⟨kept, wrote⟩ := farByte.exec_spec storable_file healthy
  obtain ⟨succeeds, nothing⟩ := removal_leaves_nothing rfl (.first (.pair List.length)) (fun _ => default) rfl (by decide)
    (.inl (show Mode.isReg (Mode.ifreg ||| 0o644) = true by decide)) placed
  have returned := succeeds kept.up small
  exact ⟨wrote 0 "file".toList 1, _, Prod.ext returned rfl, nothing _ (Prod.ext returned rfl)⟩

end GekkoFwd.Proofs.RemovedData
