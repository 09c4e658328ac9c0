import GekkoFwd.Proofs.RemovedData
import GekkoFwd.Proofs.SubtreeParts
import GekkoFwd.Proofs.TruncateOwners

/-! The requests of one removal or one truncation on all hosts that are asked, whether
these have stores of their own or share one: when all of them succeed, and what is left
in the stores then. -/

namespace GekkoFwd.Proofs.ChunkRequests
open RpcProgram ClientOps ClientSpec StorageSpec ChunkStorage LocalFs KeyPart DataPath ReadAfterWrite RemovedData TruncateDaemon
  TruncateOwners

variable {deployment : Deployment} {client : Client deployment} {path : Str} {pools : Nat → IoPool} {cluster after : Cluster}

/-- The chunks of all other paths are as they were. -/
def Elsewhere (path : Str) (before after : Cluster) : Prop :=
  ∀ backend dir c, dir ≠ dirName path → stored (after.storage backend) dir c = stored (before.storage backend) dir c

theorem Elsewhere.refl (path : Str) (cluster : Cluster) : Elsewhere path cluster cluster := fun _ _ _ _ => rfl

theorem Elsewhere.trans {between : Cluster} (first : Elsewhere path cluster between) (second : Elsewhere path between after) :
    Elsewhere path cluster after :=
  fun backend dir c other => (second backend dir c other).trans (first backend dir c other)

theorem elsewhere_setStore {backend : Nat} {store : Storage}
    (same : ∀ dir c, dir ≠ dirName path → stored store dir c = stored (cluster.storage backend) dir c) :
    Elsewhere path cluster (cluster.setStore backend store) := by
  intro other dir c different
  rw [Cluster.storage_setStore]
  by_cases here : other = backend
  · rw [here, Function.update_self]
    exact same dir c different
  · rw [Function.update_of_ne here]

theorem stored_of_confined {γ : Type} {name dir : Str} {op : Storage → γ × Storage} (confined : ConfinedTo name op) (storage : Storage)
    (other : dir ≠ name) (c : Nat) : stored (op storage).2 dir c = stored storage dir c := by
  let keep : List Str → Bool := fun place => decide (place.head? ≠ some name)
  have kept : keep [dir, DecText.toText c] = true := decide_eq_true (by simpa using other)
  have same := confined.outside keep (fun place inside => decide_eq_false (not_not.mpr inside)) storage
  refine stored_congr ?_
  rw [FileTree.get, FileTree.get, ← lookup_part (op storage).2 kept, ← lookup_part storage kept, same]

section Removal

theorem wellFormed_removeAll {storage : Storage} (valid : WellFormed storage) (dir : Str) : WellFormed (storage.removeAll [dir]) := by
  refine valid.remove ?_ ?_ (FileTree.get_removeAll storage [dir])
  · simp
  · intro other name below
    exact below.trans (List.prefix_append [other] [name])

theorem stored_removeAll_of_ne (storage : Storage) {dir other : Str} (different : other ≠ dir) (c : Nat) :
    stored (storage.removeAll [dir]) other c = stored storage other c := by
  refine stored_congr ?_
  rw [FileTree.get_removeAll, if_neg]
  rw [List.cons_prefix_cons]
  exact fun below => different below.1.symm

/-- Every request of a removal succeeds, and no store that was reached keeps a chunk. -/
theorem handleAll_removeNode (rooted : Path.isAbsolute path = true) (notRoot : path ≠ ['/']) (hosts : List Nat)
    (healthy : Healthy cluster) :
    let handled := (Cluster.server deployment pools).handleAll (hosts.map fun host => (host, Request.remove path)) cluster
    lastError handled.1 = .ok () ∧ Healthy handled.2 ∧ Elsewhere path cluster handled.2 ∧
      ∀ backend c, stored (handled.2.storage backend) (dirName path) c =
        if backend ∈ hosts.map deployment.backend then none else stored (cluster.storage backend) (dirName path) c := by
  induction hosts generalizing cluster with
  | nil => exact ⟨rfl, healthy, .refl path cluster, fun backend c => rfl⟩
  | cons first hosts ih =>
    let store := (cluster.storage (deployment.backend first)).removeAll [dirName path]
    have step : (Cluster.server deployment pools).handle first (.remove path) cluster =
        (some 0, (cluster.setDb first ((cluster.mdb first).remove path)).setStore (deployment.backend first) store) := by
      refine Cluster.handle_of_some (healthy.up first) ?_
      simp only [Cluster.serve, rpcSrvRemove_absolute rooted notRoot]
      rfl
    have between : Healthy ((cluster.setDb first ((cluster.mdb first).remove path)).setStore (deployment.backend first) store) :=
      Healthy.setStore ⟨healthy.stores, healthy.up⟩ (wellFormed_removeAll (healthy.stores _) _)
    obtain ⟨answered, kept, elsewhere, emptied⟩ := ih between
    dsimp only
    rw [List.map_cons, Server.handleAll, step]
    refine ⟨?_, kept, Elsewhere.trans (elsewhere_setStore fun dir c other => ?_) elsewhere, fun backend c => ?_⟩
    · simp only [lastError, answered, ne_eq, not_true_eq_false, if_false]
    · exact stored_removeAll_of_ne _ other c
    · refine (emptied backend c).trans ?_
      rw [Cluster.storage_setStore, Cluster.storage_setDb, List.map_cons]
      by_cases here : backend = deployment.backend first
      · rw [here, Function.update_self, stored_removeAll]
        simp
      · rw [Function.update_of_ne here]
        simp [here]

/-- A removal of something that can be read succeeds. -/
theorem exec_gkfsRemove_done (rooted : Path.isAbsolute path = true) (notRoot : path ≠ ['/']) (healthy : Healthy cluster) {md : Metadata}
    (found : entry deployment cluster path = .ok md) :
    ∃ after, (Cluster.server deployment pools).exec (gkfsRemove client path) cluster = (some (.ok ()), after) ∧
      Removed path (asked client path md) cluster after ∧ Healthy after ∧ Elsewhere path cluster after ∧
      ∀ backend c, stored (after.storage backend) (dirName path) c =
        if backend ∈ (asked client path md).map deployment.backend then none else stored (cluster.storage backend) (dirName path) c := by
  obtain ⟨answered, rest⟩ := @handleAll_removeNode deployment path pools cluster rooted notRoot (asked client path md) healthy
  refine ⟨_, ?_, removed_handleAll path (asked client path md) healthy.up, rest⟩
  rw [gkfsRemove, Program.bind_eq, Server.exec_bind, exec_getMetadata_ok healthy.up found rfl, ← answered]
  rfl

end Removal

section Truncation
variable {new cur : Nat}

theorem nodup_collect {locate : Nat → Nat} {currentSize newSize : Word} {hosts : List Nat}
    (collected : TruncateHosts.collect locate currentSize newSize = some hosts) : hosts.Nodup := by
  obtain ⟨final, ran, rfl⟩ := Option.map_eq_some_iff.mp collected
  refine (WhileLoop.run_partial (fun state : TruncateHosts.State => state.hosts.Nodup) ?_ List.nodup_nil ran).1
  intro state distinct _
  exact distinct.insert

/-- The hosts that are asked about one path have different stores. -/
theorem nodup_backends {hosts : List Nat} (distinct : hosts.Nodup) (owners : ∀ host ∈ hosts, ∃ c, client.locateData path c = host) :
    (hosts.map deployment.backend).Nodup := by
  refine distinct.map_on ?_
  intro first member second member' same
  obtain ⟨c, rfl⟩ := owners first member
  obtain ⟨c', rfl⟩ := owners second member'
  cases forwarding : deployment.forwarding with
  | true => simp only [Client.locateData, Client.distributor, forwarding, if_true, Distributor.locateData]
  | false => simpa only [Deployment.backend, forwarding, Bool.false_eq_true, if_false] using same

/-- Hosts that are ready truncate their chunks, each in its own store. -/
theorem handleAll_truncData_ready (file : IsFilePath path) (fits : new < 2 ^ 63) (hosts : List Nat) (healthy : Healthy cluster)
    (distinct : (hosts.map deployment.backend).Nodup)
    (ready : ∀ host ∈ hosts, Ready (cluster.storage (deployment.backend host)) path new) :
    let handled := (Cluster.server deployment pools).handleAll
      (hosts.map fun host => (host, Request.truncData path (.ofNat 64 new))) cluster
    (∀ reply ∈ handled.1, reply = some 0) ∧ Healthy handled.2 ∧ handled.2.mdb = cluster.mdb ∧ Elsewhere path cluster handled.2 ∧
      ∀ backend x, if backend ∈ hosts.map deployment.backend
        then Cut new (held (cluster.storage backend) path x) (held (handled.2.storage backend) path x) x
        else held (handled.2.storage backend) path x = held (cluster.storage backend) path x := by
  induction hosts generalizing cluster with
  | nil =>
    refine ⟨fun reply member => ?_, healthy, rfl, .refl path cluster, fun backend x => ?_⟩
    · cases member
    · exact if_neg List.not_mem_nil ▸ rfl
  | cons first hosts ih =>
    rw [List.map_cons, List.nodup_cons] at distinct
    obtain ⟨store, ran, valid, cut⟩ := rpcSrvTruncate_spec (healthy.stores (deployment.backend first)) file deployment.ndebug fits
      (ready first List.mem_cons_self)
    have step : (Cluster.server deployment pools).handle first (.truncData path (.ofNat 64 new)) cluster =
        (some 0, cluster.setStore (deployment.backend first) store) :=
      Cluster.handle_of_some (healthy.up first) (by simp only [Cluster.serve, ran])
    have apart : ∀ host ∈ hosts, (cluster.setStore (deployment.backend first) store).storage (deployment.backend host) =
        cluster.storage (deployment.backend host) := by
      intro host member
      rw [Cluster.storage_setStore, Function.update_of_ne]
      exact fun same => distinct.1 (same ▸ List.mem_map_of_mem member)
    obtain ⟨answered, kept, sameDb, elsewhere, effect⟩ := @ih (cluster.setStore (deployment.backend first) store)
      (healthy.setStore valid) distinct.2 fun host member => by
        rw [apart host member]
        exact ready host (List.mem_cons_of_mem _ member)
    dsimp only
    rw [List.map_cons, Server.handleAll, step]
    refine ⟨?_, kept, sameDb, Elsewhere.trans (elsewhere_setStore fun dir c other => ?_) elsewhere, fun backend x => ?_⟩
    · rw [List.forall_mem_cons]
      exact ⟨rfl, answered⟩
    · have same := stored_of_confined (SubtreeParts.confined_rpcSrvTruncate deployment.ndebug file (.ofNat 64 new))
        (cluster.storage (deployment.backend first)) other c
      rwa [ran] at same
    · have later := effect backend x
      rw [Cluster.storage_setStore] at later
      rw [List.map_cons]
      by_cases here : backend = deployment.backend first
      · subst here
        rw [if_neg distinct.1, Function.update_self] at later
        rw [if_pos List.mem_cons_self]
        exact later ▸ cut x
      · rw [Function.update_of_ne here] at later
        simp only [List.mem_cons, here, false_or]
        exact later

/-- The assertions of `gkfs_truncate` hold for a size that a file can have and one that is not larger. -/
theorem gkfsTruncateTo_asserted (client : Client deployment) (path : Str) (ordered : new ≤ cur) (fits : cur < 2 ^ 63) :
    gkfsTruncateTo client path (.ofNat 64 cur) (.ofNat 64 new) =
      if BitVec.ofNat 64 new = BitVec.ofNat 64 cur then .pure (.ok ())
      else (forwardDecrSize client path (.ofNat 64 new)).bind fun answer =>
        match answer with
        | .error errno => .pure (.error errno)
        | .ok () => forwardTruncate client path (.ofNat 64 cur) (.ofNat 64 new) := by
  have value : ∀ {n : Nat}, n < 2 ^ 63 → (BitVec.ofNat 64 n).toInt = n := by
    intro n bounded
    rw [BitVec.toInt_eq_toNat_of_lt (by rw [Words.toNat_ofNat (by omega)]; omega), Words.toNat_ofNat (by omega)]
  have positive : (!(BitVec.ofNat 64 new).slt 0) = true := by
    rw [Bool.not_eq_true', ← Bool.not_eq_true, BitVec.slt_iff_toInt_lt, value (by omega), show (0 : Word).toInt = 0 from rfl]
    omega
  have smaller : (BitVec.ofNat 64 new).sle (.ofNat 64 cur) = true := by
    rw [BitVec.sle_iff_toInt_le, value (by omega), value fits]
    omega
  simp only [gkfsTruncateTo, positive, smaller, assertClient_true, Program.bind_eq, Program.pure_bind]
  rfl

/-- A truncate whose requests all succeed. -/
theorem exec_gkfsTruncateTo_eq (client : Client deployment) (up : cluster.Up) (less : new < cur) (fits : cur < 2 ^ 63) {hosts : List Nat}
    (collected : TruncateHosts.collect (client.locateData path) (.ofNat 64 cur) (.ofNat 64 new) = some hosts)
    (answered : ∀ reply ∈ ((Cluster.server deployment pools).handleAll
      (hosts.map fun host => (host, Request.truncData path (.ofNat 64 new))) (cluster.setDb (deployment.metadataHost path)
        ((cluster.mdb (deployment.metadataHost path)).decreaseSize path (.ofNat 64 new)))).1, reply = some 0) :
    (Cluster.server deployment pools).exec (gkfsTruncateTo client path (.ofNat 64 cur) (.ofNat 64 new)) cluster =
      (some (.ok ()), ((Cluster.server deployment pools).handleAll
        (hosts.map fun host => (host, Request.truncData path (.ofNat 64 new))) (cluster.setDb (deployment.metadataHost path)
          ((cluster.mdb (deployment.metadataHost path)).decreaseSize path (.ofNat 64 new)))).2) := by
  have smaller : BitVec.ofNat 64 new < BitVec.ofNat 64 cur := by
    rw [BitVec.lt_def, Words.toNat_ofNat (by omega), Words.toNat_ofNat (by omega)]
    exact less
  have all : (((Cluster.server deployment pools).handleAll
      (hosts.map fun host => (host, Request.truncData path (.ofNat 64 new))) (cluster.setDb (deployment.metadataHost path)
        ((cluster.mdb (deployment.metadataHost path)).decreaseSize path (.ofNat 64 new)))).1.all fun reply => reply == some 0) = true :=
    List.all_eq_true.mpr fun reply member => beq_iff_eq.mpr (answered reply member)
  rw [gkfsTruncateTo_asserted client path (Nat.le_of_lt less) fits, if_neg (BitVec.ne_of_lt smaller), Server.exec_bind,
    serves_forwardDecrSize up]
  simp only [forwardTruncate, smaller, decide_true, assertClient_true, Program.bind_eq, Program.pure_bind, collected, Option.elim_some,
    Server.exec_post, all, if_true, Program.pure_eq, Server.exec_pure]

/-- A truncate into the first chunk succeeds when every host that holds a chunk is ready,
and cuts all chunks up to the last one. -/
theorem exec_gkfsTruncateTo_ready (client : Client deployment) (file : IsFilePath path) (less : new < cur) (fits : cur < 2 ^ 63)
    (covered : Covered cur new) (small : new < chunksize) (healthy : Healthy cluster)
    (ready : ∀ c ≤ (cur - 1) / chunksize, Ready (cluster.storage (deployment.chunkBackend path c)) path new) :
    ∃ after, (Cluster.server deployment pools).exec (gkfsTruncateTo client path (.ofNat 64 cur) (.ofNat 64 new)) cluster =
        (some (.ok ()), after) ∧
      Healthy after ∧ after.mdb = Function.update cluster.mdb (deployment.metadataHost path)
        ((cluster.mdb (deployment.metadataHost path)).decreaseSize path (.ofNat 64 new)) ∧
      Elsewhere path cluster after ∧
      ∀ x, Cut new (byteAt deployment cluster path x) (byteAt deployment after path x) x ∨
        ((cur - 1) / chunksize < x / chunksize ∧ byteAt deployment after path x = byteAt deployment cluster path x) := by
  have zero : new / chunksize = 0 := Nat.div_eq_of_lt small
  have start : boundary new = 0 := by rw [boundary, zero, Nat.zero_mod]
  have last := lastVisited_of_covered less covered
  rw [zero, Nat.sub_zero] at last
  have few := covered.few
  rw [zero, Nat.sub_zero] at few
  obtain ⟨hosts, collected, owners⟩ := @collect_spec (client.locateData path) _ _ _ _ (chunkStart_ofNat (by omega : new < 2 ^ 63))
    (chunkEnd_ofNat less fits) (by rw [start]; decide) (by rw [last]; exact few)
  rw [start, last] at owners
  let shrunk := cluster.setDb (deployment.metadataHost path)
    ((cluster.mdb (deployment.metadataHost path)).decreaseSize path (.ofNat 64 new))
  have distinct : (hosts.map deployment.backend).Nodup := by
    refine @nodup_backends deployment client path hosts (nodup_collect collected) fun host member => ?_
    obtain ⟨c, _, located⟩ := (owners host).mp member
    exact ⟨c, located⟩
  obtain ⟨answered, kept, sameDb, elsewhere, effect⟩ := @handleAll_truncData_ready deployment path pools shrunk new file (by omega) hosts
    ⟨healthy.stores, healthy.up⟩ distinct fun host member => by
      obtain ⟨c, inside, rfl⟩ := (owners host).mp member
      rw [client.backend_locateData]
      exact ready c inside.2
  refine ⟨_, exec_gkfsTruncateTo_eq client healthy.up less fits collected answered, kept, sameDb, elsewhere, fun x => ?_⟩
  have byte := effect (deployment.chunkBackend path (x / chunksize)) x
  split at byte
  next => exact .inl byte
  next missed =>
    refine .inr ⟨Nat.lt_of_not_le fun inside => missed ?_, byte⟩
    rw [← client.backend_locateData]
    exact List.mem_map_of_mem ((owners _).mpr ⟨_, ⟨Nat.zero_le _, inside⟩, rfl⟩)

end Truncation

end GekkoFwd.Proofs.ChunkRequests
