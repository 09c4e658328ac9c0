import GekkoFwd.Lib.DecText
import GekkoFwd.Path

/-! Placement of chunks and metadata on hosts (`global/rpc/distributor.cpp`) and
what the processes of one file system instance share. -/

namespace GekkoFwd

inductive Distributor where
  | simpleHash (localhost hostsSize : Nat)
  | localOnly (localhost : Nat)
  | forwarder (fwdHost hostsSize : Nat)
  deriving DecidableEq

namespace Distributor

/-- The chunk number is passed as `chunkid_t`, which has 32 bits. -/
def locateData (strHash : Str → Nat) (distributor : Distributor) (path : Str) (chnkId : Nat) : Nat :=
  match distributor with
  | .simpleHash _ hostsSize => strHash (path ++ DecText.toText (chnkId % 2 ^ 32)) % hostsSize
  | .localOnly localhost => localhost
  | .forwarder fwdHost _ => fwdHost

def locateFileMetadata (strHash : Str → Nat) (distributor : Distributor) (path : Str) : Nat :=
  match distributor with
  | .simpleHash _ hostsSize => strHash path % hostsSize
  | .localOnly localhost => localhost
  | .forwarder _ hostsSize => strHash path % hostsSize

def locateDirectoryMetadata (distributor : Distributor) : List Nat :=
  match distributor with
  | .simpleHash _ hostsSize => List.range hostsSize
  | .localOnly localhost => [localhost]
  | .forwarder _ hostsSize => List.range hostsSize

theorem locateData_mod (strHash : Str → Nat) (distributor : Distributor) (path : Str) (chnkId : Nat) :
    distributor.locateData strHash path (chnkId % 2 ^ 32) = distributor.locateData strHash path chnkId := by
  cases distributor <;> simp only [locateData, Nat.mod_mod]

end Distributor

/-- One running instance: the hash of its standard library, the host list that all
clients load, and how it was built, with `GKFS_ENABLE_FORWARDING` and with `NDEBUG`.
The distributors count hosts in an `unsigned int`. -/
structure Deployment where
  strHash : Str → Nat
  hosts : Nat
  hosts_pos : 0 < hosts
  hosts_fit : hosts < 2 ^ 32
  forwarding : Bool
  ndebug : Bool

namespace Deployment

/-- Forwarders keep their chunks in one shared backend, other daemons in their own. -/
def backend (deployment : Deployment) (host : Nat) : Nat := if deployment.forwarding then 0 else host

/-- The store that holds a chunk: all forwarders share one, otherwise the hash decides. -/
def chunkBackend (deployment : Deployment) (path : Str) (chnkId : Nat) : Nat :=
  if deployment.forwarding then 0 else deployment.strHash (path ++ DecText.toText (chnkId % 2 ^ 32)) % deployment.hosts

theorem chunkBackend_mod (deployment : Deployment) (path : Str) (chnkId : Nat) :
    deployment.chunkBackend path (chnkId % 2 ^ 32) = deployment.chunkBackend path chnkId := by
  rw [chunkBackend, chunkBackend, Nat.mod_mod]

/-- The host that keeps the metadata of a path. -/
def metadataHost (deployment : Deployment) (path : Str) : Nat := deployment.strHash path % deployment.hosts

/-- Two hosts, in the default build. -/
def pair (strHash : Str → Nat) : Deployment := ⟨strHash, 2, by decide, by decide, false, true⟩

end Deployment

/-- A client process. In the forwarding build its map names one of the hosts. -/
structure Client (deployment : Deployment) where
  localHost : Nat
  fwdHost : Nat
  fwdHost_lt : fwdHost < deployment.hosts

namespace Client
variable {deployment : Deployment}

/-- The client on the first host, which also forwards for it. -/
def first (deployment : Deployment) : Client deployment := ⟨0, 0, deployment.hosts_pos⟩

/-- The distributor that `init_ld_environment_` installs. -/
def distributor (client : Client deployment) : Distributor :=
  if deployment.forwarding then .forwarder client.fwdHost deployment.hosts
  else .simpleHash client.localHost deployment.hosts

def locateData (client : Client deployment) (path : Str) (chnkId : Nat) : Nat :=
  client.distributor.locateData deployment.strHash path chnkId

def locateFileMetadata (client : Client deployment) (path : Str) : Nat :=
  client.distributor.locateFileMetadata deployment.strHash path

theorem locateData_lt (client : Client deployment) (path : Str) (chnkId : Nat) :
    client.locateData path chnkId < deployment.hosts := by
  unfold locateData distributor
  split
  · exact client.fwdHost_lt
  · exact Nat.mod_lt _ deployment.hosts_pos

/-- All clients reach the same store of a chunk, forwarders or not. -/
theorem backend_locateData (client : Client deployment) (path : Str) (chnkId : Nat) :
    deployment.backend (client.locateData path chnkId) = deployment.chunkBackend path chnkId := by
  unfold Deployment.backend Deployment.chunkBackend locateData distributor
  split <;> rfl

/-- All clients look for metadata on the same host. -/
theorem locateFileMetadata_eq (client : Client deployment) (path : Str) :
    client.locateFileMetadata path = deployment.metadataHost path := by
  unfold locateFileMetadata distributor
  split <;> rfl

/-- Every client asks all hosts for the entries of a directory. -/
theorem locateDirectoryMetadata_eq (client : Client deployment) :
    client.distributor.locateDirectoryMetadata = List.range deployment.hosts := by
  unfold distributor
  split <;> rfl

end Client
end GekkoFwd
