import GekkoFwd.Proofs.ClientSpec
import GekkoFwd.Proofs.DataPath
import GekkoFwd.Proofs.TruncateDaemon

/-! The hosts that a truncate reaches. The client counts chunks from the new size up to
the number of removed bytes, so that only a cut inside the first chunk is sure to
reach every owner. -/

namespace GekkoFwd.Proofs.TruncateOwners
open StorageSpec ClientSpec DataPath TruncateDaemon

section Loop
variable {locate : Nat → Nat} {start stop : Nat}

/-- The hosts of the chunks before `next` have been collected. -/
structure Collected (locate : Nat → Nat) (start stop next : Nat) (state : TruncateHosts.State) : Prop where
  chunkId : state.chunkId = .ofNat 32 next
  least : start ≤ next
  most : next ≤ start ∨ next ≤ stop + 1
  hosts : ∀ host, host ∈ state.hosts ↔ ∃ c, (start ≤ c ∧ c < next) ∧ locate c = host

theorem Collected.toNat_chunkId {next : Nat} {state : TruncateHosts.State} (seen : Collected locate start stop next state)
    (started : start < 2 ^ 32) (stopped : stop < 2 ^ 32 - 1) : state.chunkId.toNat = next := by
  have most := seen.most
  rw [seen.chunkId, Words.toNat_ofNat (by omega)]

theorem Collected.step {next : Nat} {state : TruncateHosts.State} (seen : Collected locate start stop next state)
    (started : start < 2 ^ 32) (stopped : stop < 2 ^ 32 - 1) (inside : next ≤ stop) :
    Collected locate start stop (next + 1) (TruncateHosts.body locate state) := by
  have least := seen.least
  refine ⟨?_, by omega, by omega, fun host => ?_⟩
  · rw [TruncateHosts.body, seen.chunkId, BitVec.ofNat_add]
    rfl
  · rw [TruncateHosts.body, List.mem_insert_iff, seen.hosts, seen.toNat_chunkId started stopped]
    constructor
    · rintro (rfl | ⟨c, bounds, located⟩)
      · exact ⟨next, by omega, rfl⟩
      · exact ⟨c, by omega, located⟩
    · rintro ⟨c, bounds, located⟩
      rcases Nat.lt_succ_iff_lt_or_eq.mp bounds.2 with less | rfl
      · exact .inr ⟨c, by omega, located⟩
      · exact .inl located.symm

variable {currentSize newSize : Word} (started : TruncateHosts.chunkStart newSize = .ofNat 32 start)
  (ended : TruncateHosts.chunkEnd currentSize newSize = .ofNat 32 stop) (small : start < 2 ^ 32)

/-- No number is larger than the largest one: the loop up to it never ends. -/
theorem collect_diverges (ended : TruncateHosts.chunkEnd currentSize newSize = .ofNat 32 (2 ^ 32 - 1)) :
    TruncateHosts.collect locate currentSize newSize = none := by
  rw [TruncateHosts.collect, WhileLoop.run_diverges]
  · rfl
  · intro round
    rw [TruncateHosts.guard, decide_eq_true_eq, ended, BitVec.le_def, Words.toNat_ofNat (by decide)]
    exact Nat.le_sub_one_of_lt (BitVec.isLt _)

include started ended small in
theorem collect_spec (fits : stop < 2 ^ 32 - 1) :
    ∃ hosts, TruncateHosts.collect locate currentSize newSize = some hosts ∧
      ∀ host, host ∈ hosts ↔ ∃ c, (start ≤ c ∧ c ≤ stop) ∧ locate c = host := by
  have goes : ∀ {next state}, Collected locate start stop next state →
      (TruncateHosts.guard currentSize newSize state = true ↔ next ≤ stop) := by
    intro next state seen
    have most := seen.most
    rw [TruncateHosts.guard, decide_eq_true_eq, ended, seen.chunkId, Words.ofNat_le (by omega) (by omega)]
  have loop : ∃ final, WhileLoop.run (TruncateHosts.guard currentSize newSize) (TruncateHosts.body locate)
      ⟨TruncateHosts.chunkStart newSize, []⟩ = some final ∧
      (∃ next, Collected locate start stop next final) ∧ TruncateHosts.guard currentSize newSize final = false := by
    refine WhileLoop.run_total (fun state => ∃ next, Collected locate start stop next state)
      (fun state => stop + 1 - state.chunkId.toNat) ?_ ⟨start, started, Nat.le_refl _, .inl (Nat.le_refl _), ?_⟩
    · rintro state ⟨next, seen⟩ go
      have inside := (goes seen).mp go
      have after := seen.step small fits inside
      refine ⟨⟨_, after⟩, ?_⟩
      rw [after.toNat_chunkId small fits, seen.toNat_chunkId small fits]
      omega
    · intro host
      simp only [List.not_mem_nil, false_iff, not_exists]
      omega
  obtain ⟨final, ran, ⟨next, seen⟩, stopped⟩ := loop
  have past : stop < next := by
    by_contra inside
    rw [(goes seen).mpr (by omega)] at stopped
    cases stopped
  refine ⟨final.hosts, by rw [TruncateHosts.collect, ran]; rfl, fun host => ?_⟩
  rw [seen.hosts]
  have least := seen.least
  have most := seen.most
  exact exists_congr fun c => and_congr_left fun _ => by omega

end Loop

section Owners
variable {cur new : Nat}

/-- The number of the last chunk that the loop visits. -/
def lastVisited (cur new : Nat) : Nat := (cur - new - 1) / chunksize % 2 ^ 32

theorem chunkStart_ofNat (fits : new < 2 ^ 63) : TruncateHosts.chunkStart (.ofNat 64 new) = .ofNat 32 (boundary new) := by
  apply BitVec.eq_of_toNat_eq
  rw [TruncateHosts.chunkStart, BitVec.toNat_ofNat, chunkStart_eq fits, BitVec.toNat_ofNat, boundary, Nat.mod_mod]

theorem chunkEnd_ofNat (less : new < cur) (fits : cur < 2 ^ 63) :
    TruncateHosts.chunkEnd (.ofNat 64 cur) (.ofNat 64 new) = .ofNat 32 (lastVisited cur new) := by
  have removed : BitVec.ofNat 64 cur - BitVec.ofNat 64 new - 1 = BitVec.ofNat 64 (cur - new - 1) := by
    apply BitVec.eq_of_toNat_eq
    have one : (1 : Word).toNat = 1 := rfl
    rw [BitVec.toNat_sub, BitVec.toNat_sub, Words.toNat_ofNat (by omega), Words.toNat_ofNat (by omega),
      Words.toNat_ofNat (by omega), one]
    omega
  apply BitVec.eq_of_toNat_eq
  rw [TruncateHosts.chunkEnd, removed, BitVec.toNat_ofNat, chunkStart_eq (by omega), BitVec.toNat_ofNat, boundary, lastVisited,
    Nat.mod_mod]

/-- The contacted hosts include the owner of every chunk of the removed range. -/
def ReachesOwners (locate : Nat → Nat) (cur new : Nat) : Prop :=
  ∃ hosts, TruncateHosts.collect locate (.ofNat 64 cur) (.ofNat 64 new) = some hosts ∧
    ∀ c, new / chunksize ≤ c → c ≤ (cur - 1) / chunksize → locate c ∈ hosts

/-- The new size lies in the first chunk, as chunks are numbered, and within a chunk
not behind the last byte; and the removed chunks have numbers of their own. -/
structure Covered (cur new : Nat) : Prop where
  first : new / chunksize % 2 ^ 32 = 0
  ordered : new % chunksize ≤ (cur - 1) % chunksize
  few : (cur - 1) / chunksize - new / chunksize < 2 ^ 32 - 1

theorem lastVisited_of_covered (less : new < cur) (covered : Covered cur new) :
    lastVisited cur new = (cur - 1) / chunksize - new / chunksize := by
  obtain ⟨_, ordered, few⟩ := covered
  simp only [lastVisited, chunksize] at *
  omega

/-- Every number between the ends of the loop has to be that of a removed chunk. -/
theorem covered_of_visited (less : new < cur) (bounded : lastVisited cur new ≠ 2 ^ 32 - 1)
    (visited : ∀ c, new / chunksize ≤ c → c ≤ (cur - 1) / chunksize →
      boundary new ≤ c % 2 ^ 32 ∧ c % 2 ^ 32 ≤ lastVisited cur new) : Covered cur new := by
  have few : (cur - 1) / chunksize - new / chunksize < 2 ^ 32 - 1 := by
    by_contra many
    have largest := visited (new / chunksize + (2 ^ 32 - 1 - new / chunksize % 2 ^ 32)) (by omega) (by omega)
    simp only [lastVisited] at *
    omega
  have first : new / chunksize % 2 ^ 32 = 0 := by
    by_contra positive
    by_cases wraps : new / chunksize % 2 ^ 32 + ((cur - 1) / chunksize - new / chunksize) < 2 ^ 32
    · have last := visited ((cur - 1) / chunksize) (Nat.div_le_div_right (by omega)) (Nat.le_refl _)
      simp only [lastVisited, boundary, chunksize] at *
      omega
    · have zero := visited (new / chunksize + (2 ^ 32 - new / chunksize % 2 ^ 32)) (by omega) (by omega)
      simp only [boundary] at zero
      omega
  refine ⟨first, ?_, few⟩
  have last := visited ((cur - 1) / chunksize) (Nat.div_le_div_right (by omega)) (Nat.le_refl _)
  simp only [lastVisited, boundary, chunksize] at *
  omega

theorem reachesOwners_of_covered {locate : Nat → Nat} (narrowed : ∀ c, locate (c % 2 ^ 32) = locate c) (less : new < cur)
    (fits : cur < 2 ^ 63) (covered : Covered cur new) : ReachesOwners locate cur new := by
  have last := lastVisited_of_covered less covered
  have few := covered.few
  have first := covered.first
  obtain ⟨hosts, ran, reached⟩ := @collect_spec locate _ _ _ _ (chunkStart_ofNat (by omega)) (chunkEnd_ofNat less fits)
    (Nat.mod_lt _ (by decide)) (by omega)
  refine ⟨hosts, ran, fun c least most => (reached _).mpr ⟨c % 2 ^ 32, ?_, narrowed c⟩⟩
  rw [last, boundary, first]
  omega

/-- A hash under which only the chunks with one number go to the second host. -/
def marks (path : Str) (number : Nat) (text : Str) : Nat := if text = path ++ DecText.toText number then 1 else 0

theorem covered_of_reachesOwners (less : new < cur) (fits : cur < 2 ^ 63) (path : Str)
    (reaches : ∀ number, ReachesOwners ((Distributor.simpleHash 0 2).locateData (marks path number) path) cur new) :
    Covered cur new := by
  have located : ∀ number c, (Distributor.simpleHash 0 2).locateData (marks path number) path c =
      if c % 2 ^ 32 = number then 1 else 0 := by
    intro number c
    simp only [Distributor.locateData, marks, List.append_cancel_left_eq, DecText.toText_injective.eq_iff]
    split <;> rfl
  have bounded : lastVisited cur new ≠ 2 ^ 32 - 1 := by
    intro largest
    obtain ⟨hosts, ran, _⟩ := reaches 0
    rw [collect_diverges (largest ▸ chunkEnd_ofNat less fits)] at ran
    cases ran
  have narrow : lastVisited cur new < 2 ^ 32 := Nat.mod_lt _ (by decide)
  refine covered_of_visited less bounded fun c least most => ?_
  obtain ⟨hosts, ran, reached⟩ := reaches (c % 2 ^ 32)
  obtain ⟨hosts', ran', members⟩ := @collect_spec ((Distributor.simpleHash 0 2).locateData (marks path (c % 2 ^ 32)) path)
    _ _ _ _ (chunkStart_ofNat (by omega)) (chunkEnd_ofNat less fits) (Nat.mod_lt _ (by decide)) (by omega)
  rw [ran] at ran'
  cases ran'
  obtain ⟨other, bounds, same⟩ := (members _).mp (reached c least most)
  rw [located, located, if_pos rfl] at same
  split at same
  next equal =>
    rw [Nat.mod_eq_of_lt (by omega)] at equal
    exact equal ▸ bounds
  next => cases same

end Owners

section Requests
variable {deployment : Deployment} {pools : Nat → IoPool} {path : Str} {new : Nat}

/-- A host that answers without an error has removed everything behind the cut. -/
theorem handle_truncData (file : IsFilePath path) (fits : new < 2 ^ 63) {host : Nat} {cluster : Cluster}
    (healthy : Healthy cluster)
    (answered : ((Cluster.server deployment pools).handle host (.truncData path (.ofNat 64 new)) cluster).1 = some 0) :
    ∃ store, ((Cluster.server deployment pools).handle host (.truncData path (.ofNat 64 new)) cluster).2 =
        cluster.setStore (deployment.backend host) store ∧ WellFormed store ∧
      ∀ x, cutAt new ≤ x → held store path x = none := by
  have valid := healthy.stores (deployment.backend host)
  have ready : Ready (cluster.storage (deployment.backend host)) path new := by
    by_contra unready
    have failed := rpcSrvTruncate_fails valid file deployment.ndebug fits unready
    have served := Cluster.serve_of_handle answered
    simp only [Cluster.serve, failed] at served
    cases served
  obtain ⟨store, ran, kept, effect⟩ := rpcSrvTruncate_spec valid file deployment.ndebug fits ready
  have served : (Cluster.server deployment pools).handle host (.truncData path (.ofNat 64 new)) cluster =
      (some 0, cluster.setStore (deployment.backend host) store) :=
    Cluster.handle_of_some (healthy.up host) (by simp only [Cluster.serve, ran])
  refine ⟨store, by rw [served], kept, fun x behind => ?_⟩
  have gone := effect x
  rwa [Cut, if_neg (Nat.not_lt.mpr behind)] at gone

/-- When every host answers without an error, nothing is left behind the cut in the
stores that were reached; the others are as they were. -/
theorem handleAll_truncData (file : IsFilePath path) (fits : new < 2 ^ 63) (hosts : List Nat) {cluster : Cluster}
    (healthy : Healthy cluster)
    (answered : ∀ reply ∈ ((Cluster.server deployment pools).handleAll
      (hosts.map fun host => (host, Request.truncData path (.ofNat 64 new))) cluster).1, reply = some 0)
    (backend x : Nat) (behind : cutAt new ≤ x)
    (gone : backend ∈ hosts.map deployment.backend ∨ held (cluster.storage backend) path x = none) :
    held (((Cluster.server deployment pools).handleAll
      (hosts.map fun host => (host, Request.truncData path (.ofNat 64 new))) cluster).2.storage backend) path x = none := by
  induction hosts generalizing cluster with
  | nil =>
    rcases gone with impossible | gone
    · cases impossible
    · exact gone
  | cons host hosts ih =>
    obtain ⟨store, changed, valid, cut⟩ := handle_truncData file fits healthy (answered _ List.mem_cons_self)
    simp only [List.map_cons, RpcProgram.Server.handleAll, changed, List.forall_mem_cons] at answered ⊢
    refine ih (healthy.setStore valid) answered.2 ?_
    rw [Cluster.storage_setStore]
    by_cases here : backend = deployment.backend host
    · rw [here, Function.update_self]
      exact .inr (cut x behind)
    · rw [Function.update_of_ne here]
      refine gone.imp_left fun member => ?_
      exact List.mem_of_ne_of_mem here member

/-- The chunks of a file are kept only where they are looked for. -/
def Placed (deployment : Deployment) (path : Str) (cluster : Cluster) : Prop :=
  ∀ backend c, (stored (cluster.storage backend) (dirName path) c).isSome → backend = deployment.chunkBackend path c

/-- After a successful `gkfs_truncate` no host keeps a byte of the file from the new
size on. The byte at an offset is looked for in the chunk whose number it has. -/
def LeavesNothing (client : Client deployment) (path : Str) (cur new : Nat) : Prop :=
  ∀ (pools : Nat → IoPool) (cluster after : Cluster), Healthy cluster → Placed deployment path cluster →
    (Cluster.server deployment pools).exec (ClientOps.gkfsTruncateTo client path (.ofNat 64 cur) (.ofNat 64 new)) cluster =
      (some (.ok ()), after) →
    ∀ backend x, new ≤ x → x < cur → held (after.storage backend) path (x % (2 ^ 32 * chunksize)) = none

/-- What a successful truncate did: its requests were sent to the collected hosts and
all of them were answered without an error. -/
theorem exec_gkfsTruncateTo {client : Client deployment} {oldSize newSize : Word} {cluster after : Cluster}
    (healthy : Healthy cluster) (different : newSize ≠ oldSize)
    (succeeded : (Cluster.server deployment pools).exec (ClientOps.gkfsTruncateTo client path oldSize newSize) cluster =
      (some (.ok ()), after)) :
    ∃ hosts before, TruncateHosts.collect (client.locateData path) oldSize newSize = some hosts ∧
      Healthy before ∧ before.storage = cluster.storage ∧
      (∀ reply ∈ ((Cluster.server deployment pools).handleAll
        (hosts.map fun host => (host, Request.truncData path newSize)) before).1, reply = some 0) ∧
      after = ((Cluster.server deployment pools).handleAll
        (hosts.map fun host => (host, Request.truncData path newSize)) before).2 := by
  simp only [ClientOps.gkfsTruncateTo, RpcProgram.Program.bind_eq, if_neg different] at succeeded
  obtain ⟨_, _, passed, succeeded⟩ := RpcProgram.Server.exec_bind_eq_some _ succeeded
  cases exec_assertClient passed
  obtain ⟨_, _, passed, succeeded⟩ := RpcProgram.Server.exec_bind_eq_some _ succeeded
  cases exec_assertClient passed
  obtain ⟨answer, before, shrunk, succeeded⟩ := RpcProgram.Server.exec_bind_eq_some _ succeeded
  rw [serves_forwardDecrSize healthy.up] at shrunk
  obtain ⟨-, rfl⟩ := Prod.mk.inj shrunk
  cases answer with
  | error errno => cases succeeded
  | ok _ =>
    simp only [ClientOps.forwardTruncate, RpcProgram.Program.bind_eq] at succeeded
    obtain ⟨_, _, passed, succeeded⟩ := RpcProgram.Server.exec_bind_eq_some _ succeeded
    cases exec_assertClient passed
    cases collected : TruncateHosts.collect (client.locateData path) oldSize newSize with
    | none =>
      rw [collected] at succeeded
      cases succeeded
    | some hosts =>
      rw [collected, Option.elim_some, RpcProgram.Server.exec_post] at succeeded
      obtain ⟨result, same⟩ := Prod.mk.inj succeeded
      refine ⟨hosts, _, rfl, ?_, ?_, fun reply member => ?_, same.symm⟩
      · exact ⟨healthy.stores, healthy.up⟩
      · rfl
      · split at result
        next all => exact eq_of_beq (List.all_eq_true.mp all reply member)
        next => cases result

theorem leavesNothing_of_covered {client : Client deployment} {cur : Nat} (file : IsFilePath path) (less : new < cur)
    (fits : cur < 2 ^ 63) (covered : Covered cur new) : LeavesNothing client path cur new := by
  intro pools cluster after healthy placed succeeded backend x least most
  have different : BitVec.ofNat 64 new ≠ BitVec.ofNat 64 cur := by
    rw [ne_eq, Words.ofNat_inj (by omega) (by omega)]
    omega
  obtain ⟨hosts, before, collected, kept, sameStores, answered, rfl⟩ := exec_gkfsTruncateTo healthy different succeeded
  obtain ⟨hosts', collected', reached⟩ :=
    reachesOwners_of_covered (Distributor.locateData_mod deployment.strHash client.distributor path) less fits covered
  cases collected.symm.trans collected'
  obtain ⟨first, _, few⟩ := covered
  have cut : cutAt new = new % chunksize := by
    rw [cutAt_plain (by rw [boundary, first]; omega), boundary, first, Nat.zero_mul, Nat.zero_add]
  have number : x % (2 ^ 32 * chunksize) / chunksize = x / chunksize % 2 ^ 32 := by
    simp only [chunksize]
    omega
  refine handleAll_truncData file (by omega) hosts kept answered backend _ ?_ ?_
  · rw [cut]
    simp only [chunksize] at *
    omega
  · rw [sameStores]
    cases kept : held (cluster.storage backend) path (x % (2 ^ 32 * chunksize)) with
    | none => exact .inr rfl
    | some b =>
      left
      have chunk : (stored (cluster.storage backend) (dirName path) (x / chunksize % 2 ^ 32)).isSome := by
        rw [held, number] at kept
        cases found : stored (cluster.storage backend) (dirName path) (x / chunksize % 2 ^ 32) with
        | none =>
          rw [found] at kept
          cases kept
        | some content => rfl
      have owner := reached (x / chunksize) (Nat.div_le_div_right least) (Nat.div_le_div_right (by omega))
      rw [placed _ _ chunk, ← client.backend_locateData]
      exact List.mem_map.mpr ⟨_, owner, by rw [Client.locateData, Distributor.locateData_mod]⟩

end Requests

/-- A truncate reaches every owner under every distributor, and leaves nothing behind
the new size, exactly for the sizes in `Covered`. -/
theorem truncate_reaches_iff_covered {cur new : Nat} (less : new < cur) (fits : cur < 2 ^ 63) :
    ((∀ (strHash : Str → Nat) (distributor : Distributor) (path : Str),
        ReachesOwners (distributor.locateData strHash path) cur new) ∧
      ∀ (deployment : Deployment) (client : Client deployment) (path : Str), IsFilePath path →
        LeavesNothing client path cur new) ↔ Covered cur new := by
  constructor
  · rintro ⟨reaches, _⟩
    exact covered_of_reachesOwners less fits [] fun number => reaches _ _ _
  · intro covered
    refine ⟨fun strHash distributor path => ?_, fun _ client path file => leavesNothing_of_covered file less fits covered⟩
    exact reachesOwners_of_covered (Distributor.locateData_mod strHash distributor path) less fits covered

/-- A file of two chunks is cut to one: no host is contacted, not even the owner of the
second chunk. -/
theorem second_chunk_not_reached : ¬ReachesOwners ((Distributor.simpleHash 0 2).locateData List.length "/file".toList)
    (2 * chunksize) chunksize := by
  rintro ⟨hosts, collected, reached⟩
  obtain ⟨visited, ran, members⟩ := @collect_spec ((Distributor.simpleHash 0 2).locateData List.length "/file".toList) _ _ _ _
    (@chunkStart_ofNat chunksize (by decide)) (@chunkEnd_ofNat (2 * chunksize) chunksize (by decide) (by decide))
    (by decide) (by decide)
  cases collected.symm.trans ran
  obtain ⟨c, bounds, _⟩ := (members _).mp (reached 1 (by decide) (by decide))
  have start : boundary chunksize = 1 := by decide
  have stop : lastVisited (2 * chunksize) chunksize = 0 := by decide
  omega

/-- A cut from three chunks to a part of the first one. -/
theorem truncate_reaches_first_chunk :
    (∀ (strHash : Str → Nat) (distributor : Distributor) (path : Str),
        ReachesOwners (distributor.locateData strHash path) 1500000 100) ∧
      ∀ (deployment : Deployment) (client : Client deployment) (path : Str), IsFilePath path →
        LeavesNothing client path 1500000 100 :=
  (truncate_reaches_iff_covered (by decide) (by decide)).mpr ⟨by decide, by decide, by decide⟩

end GekkoFwd.Proofs.TruncateOwners
