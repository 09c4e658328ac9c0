import GekkoFwd.DirRecords
import GekkoFwd.Proofs.ChunkRequests
import GekkoFwd.Proofs.FileSystemSpec
import GekkoFwd.Proofs.NamespaceTree
import GekkoFwd.Proofs.StorageIsolation

/-! How the databases and the chunk stores of the hosts hold the specified file system, and
what a change at one path leaves of the rest. -/

namespace GekkoFwd.Proofs.FileSystemRefinement
open RpcProgram ClientOps ClientSpec MergeLaws StorageSpec DataPath ReadAfterWrite ChunkRequests FileSystemSpec

/-- A process that makes a call, and how the pools of the hosts behave meanwhile: local
writes store all that they are given, and local reads do not fail. -/
structure Caller (deployment : Deployment) where
  client : Client deployment
  config : FsConfig
  hash : Str → Word
  pools : Nat → IoPool
  complete : ∀ host, Complete (pools host)
  answers : ∀ host, Answers (pools host)

namespace Caller
variable {deployment : Deployment} (caller : Caller deployment) (path : Str)

def run : Call → Prog (SysResult (Reply (List (Str × Bool))))
  | .open permissions flags => do return (← gkfsOpen caller.client path permissions.bits flags).map fun _ => .done
  | .mkdir permissions => do return (← ClientOps.mkdir caller.client path permissions.bits).map fun _ => .done
  | .stat => do
    return (← FileOps.gkfsStat caller.client caller.config caller.hash path true).map fun stat => .attributes stat.mode stat.size.toNat
  | .pwrite data offset => do
    return (← gkfsPwrite caller.client path false data (.ofNat 64 offset)).map fun count => .wrote count.toNat
  | .pread buf offset => do
    let (result, buf) ← gkfsPread caller.client path buf (.ofNat 64 offset)
    return result.map fun count => .read count.toNat buf
  | .truncate length => do return (← gkfsTruncate caller.client path (.ofNat 64 length)).map fun _ => .done
  | .opendir => do return (← gkfsOpendir caller.client path).map .entries
  | .unlink => do return (← gkfsRemove caller.client path).map fun _ => .done
  | .rmdir => do return (← gkfsRmdir caller.client path).map fun _ => .done

def exec (call : Call) (cluster : Cluster) : Option (SysResult (Reply (List (Str × Bool)))) × Cluster :=
  (Cluster.server deployment caller.pools).exec (caller.run path call) cluster

end Caller

/-- What a host has for a path stands for what the path names. -/
def Stands : Option Node → Option Cell → Prop
  | none, found => found = none
  | some node, found => ∃ cell md, found = some cell ∧ Holds false Signed cell md ∧ md.mode = node.mode ∧
      md.size.toNat = node.content.length

def contentAt (fs : FileSystem) (path : Str) : List Byte := (fs path).elim [] Node.content

/-- The hosts hold the file system: each entry with the host of its path, and each byte in
its chunk. -/
structure Represents (deployment : Deployment) (fs : FileSystem) (cluster : Cluster) : Prop where
  healthy : Healthy cluster
  plain : ∀ path, (fs path).isSome → Plain path
  root : ∃ permissions, fs ['/'] = some (.directory permissions)
  keys : ∀ host, ∀ key ∈ cluster.mdb host, Plain key ∧ (key ≠ ['/'] → host = deployment.metadataHost key)
  roots : ∀ host, ∃ cell md, (cluster.mdb host).lookup ['/'] = some cell ∧ Holds false Signed cell md
  entries : ∀ path, Stands (fs path) ((cluster.mdb (deployment.metadataHost path)).lookup path)
  bytes : ∀ path, Plain path → ∀ x, byteAt deployment cluster path x = (contentAt fs path)[x]?

theorem plain_root : Plain ['/'] := ⟨Path.canonical_root, by decide, by decide⟩

theorem represents_fresh (deployment : Deployment) : Represents deployment .initial .fresh := by
  have only : ∀ host key, (Cluster.fresh.mdb host).lookup key =
      if key = ['/'] then some ⟨none, [(MergeOperand.create ((Metadata.ofMode (Mode.ifdir ||| 0o777)).serialize .default)).serialize]⟩
      else none := by
    intro host key
    rw [Cluster.fresh, MetadataDb.lookup_merge]
    rfl
  refine ⟨healthy_fresh, ?_, ⟨rootPermissions, rfl⟩, ?_, ?_, ?_, ?_⟩
  · intro path named
    simp only [FileSystem.initial] at named
    split at named
    next top => rw [top]; exact plain_root
    next => cases named
  · intro host key member
    obtain ⟨cell, found⟩ := NamespaceTree.mem_iff_lookup.mp member
    rw [only] at found
    split at found
    next top => rw [top]; exact ⟨plain_root, fun other => absurd rfl other⟩
    next => cases found
  · intro host
    exact ⟨_, _, only host ['/'], .created (recorded_ofMode _)⟩
  · intro path
    rw [only]
    by_cases top : path = ['/']
    · rw [top, FileSystem.initial, if_pos rfl, if_pos rfl]
      exact ⟨_, Metadata.ofMode (Mode.ifdir ||| 0o777), rfl, .created (recorded_ofMode _), by decide, rfl⟩
    · rw [FileSystem.initial, if_neg top, if_neg top]
      rfl
  · intro path _ x
    have empty : contentAt .initial path = [] := by
      rw [contentAt, FileSystem.initial]
      split <;> rfl
    rw [byteAt, held, stored_fresh, empty]
    rfl

section Reading
variable {deployment : Deployment} {pools : Nat → IoPool} {client : Client deployment} {fs : FileSystem} {path : Str}
  {cluster after : Cluster} {node : Node}

namespace Represents

theorem missing (represents : Represents deployment fs cluster) (absent : fs path = none) :
    (cluster.mdb (deployment.metadataHost path)).lookup path = none := by
  have stands := represents.entries path
  rwa [absent] at stands

theorem found (represents : Represents deployment fs cluster) (named : fs path = some node) :
    ∃ md, entry deployment cluster path = .ok md ∧ md.mode = node.mode ∧ md.size = .ofNat 64 node.content.length ∧
      node.content.length < 2 ^ 63 := by
  have stands := represents.entries path
  rw [named] at stands
  obtain ⟨cell, md, found, holds, mode, size⟩ := stands
  have small : md.size.toNat < 2 ^ 63 := holds.recorded.size
  refine ⟨md, entry_of_holds found (holds.release deployment.ndebug), mode, ?_, size ▸ small⟩
  rw [← size, BitVec.ofNat_toNat, BitVec.setWidth_eq]

theorem exec_getMetadata (represents : Represents deployment fs cluster) (named : fs path = some node) {followLinks : Bool} :
    ∃ md, (Cluster.server deployment pools).exec (getMetadata client path followLinks) cluster = (some (.ok md), cluster) ∧
      md.mode = node.mode ∧ md.size = .ofNat 64 node.content.length := by
  obtain ⟨md, found, mode, size, _⟩ := represents.found named
  refine ⟨md, exec_getMetadata_ok represents.healthy.up found ?_, mode, size⟩
  rw [mode, node.isLnk_mode, Bool.and_false]

end Represents

end Reading

/-! What a change at one path leaves of the rest. -/

section Changes
variable {deployment : Deployment} {pools : Nat → IoPool} {client : Client deployment} {fs : FileSystem} {path : Str}
  {cluster after : Cluster} {node : Option Node}

theorem dirName_injective {other : Str} (plain : Plain path) (plain' : Plain other) (same : dirName path = dirName other) :
    path = other := by
  have back : ∀ {text : Str}, ':' ∉ text →
      (text.map fun c => if c = '/' then ':' else c).map (fun c => if c = ':' then '/' else c) = text := by
    intro text colonFree
    rw [List.map_map]
    refine (List.map_congr_left fun c member => ?_).trans (List.map_id text)
    by_cases slash : c = '/'
    · simp [slash]
    · have other : c ≠ ':' := fun same => colonFree (same ▸ member)
      simp [slash, other]
  obtain ⟨rest, rfl⟩ := StorageIsolation.head_of_canonical plain.canonical
  obtain ⟨rest', rfl⟩ := StorageIsolation.head_of_canonical plain'.canonical
  have tails := congrArg (List.map fun c => if c = ':' then '/' else c) same
  rw [dirName, dirName, List.tail_cons, List.tail_cons, back fun member => plain.colonFree (List.mem_cons_of_mem _ member),
    back fun member => plain'.colonFree (List.mem_cons_of_mem _ member)] at tails
  rw [tails]

/-- The entries of all other paths are as they were. -/
def Unlisted (deployment : Deployment) (path : Str) (before after : Cluster) : Prop :=
  ∀ host key, key ≠ path ∨ host ≠ deployment.metadataHost path → (after.mdb host).lookup key = (before.mdb host).lookup key

theorem unlisted_update {db : MetadataDb} (same : ∀ key, key ≠ path → db.lookup key =
      (cluster.mdb (deployment.metadataHost path)).lookup key)
    (changed : after.mdb = Function.update cluster.mdb (deployment.metadataHost path) db) : Unlisted deployment path cluster after := by
  intro host key other
  rw [changed]
  by_cases here : host = deployment.metadataHost path
  · rw [here, Function.update_self]
    exact same key (other.resolve_right fun apart => apart here)
  · rw [Function.update_of_ne here]

theorem Represents.change (represents : Represents deployment fs cluster) (plain : Plain path) (notRoot : path ≠ ['/'])
    (healthy : Healthy after) (unlisted : Unlisted deployment path cluster after)
    (stands : Stands node ((after.mdb (deployment.metadataHost path)).lookup path)) (elsewhere : Elsewhere path cluster after)
    (bytes : ∀ x, byteAt deployment after path x = (node.elim [] Node.content)[x]?) :
    Represents deployment (Function.update fs path node) after := by
  have stays : ∀ {host key}, key ∈ after.mdb host → (key = path ∧ host = deployment.metadataHost path) ∨ key ∈ cluster.mdb host := by
    intro host key member
    by_cases here : key = path ∧ host = deployment.metadataHost path
    · exact .inl here
    · obtain ⟨cell, found⟩ := NamespaceTree.mem_iff_lookup.mp member
      rw [unlisted host key (not_and_or.mp here)] at found
      exact .inr (NamespaceTree.mem_iff_lookup.mpr ⟨cell, found⟩)
  refine ⟨healthy, ?_, ?_, ?_, ?_, ?_, ?_⟩
  · intro other named
    by_cases here : other = path
    · exact here ▸ plain
    · rw [Function.update_of_ne here] at named
      exact represents.plain other named
  · rw [Function.update_of_ne notRoot.symm]
    exact represents.root
  · intro host key member
    rcases stays member with ⟨rfl, rfl⟩ | before
    · exact ⟨plain, fun _ => rfl⟩
    · exact represents.keys host key before
  · intro host
    rw [unlisted host ['/'] (.inl notRoot.symm)]
    exact represents.roots host
  · intro other
    by_cases here : other = path
    · rw [here, Function.update_self]
      exact stands
    · rw [Function.update_of_ne here, unlisted _ _ (.inl here)]
      exact represents.entries other
  · intro other plain' x
    by_cases here : other = path
    · rw [here, contentAt, Function.update_self]
      exact bytes x
    · have apart : dirName other ≠ dirName path := fun same => here (dirName_injective plain' plain same)
      rw [contentAt, Function.update_of_ne here, byteAt, held, elsewhere _ _ _ apart]
      exact represents.bytes other plain' x

/-- Operands that are merged in the background change nothing. -/
theorem Represents.collapse (represents : Represents deployment fs cluster) (host : Nat) (key : Str) (count : Nat) :
    Represents deployment fs (cluster.setDb host ((cluster.mdb host).collapse .default deployment.ndebug key count)) := by
  have looked : ∀ other path, ((cluster.setDb host ((cluster.mdb host).collapse .default deployment.ndebug key count)).mdb other).lookup
      path = (cluster.mdb other).lookup path ∨
      ((cluster.setDb host ((cluster.mdb host).collapse .default deployment.ndebug key count)).mdb other).lookup path =
        ((cluster.mdb other).lookup path).map (Cell.collapse .default deployment.ndebug count) := by
    intro other path
    rw [NamespaceTree.lookup_collapsed]
    split
    next => exact .inr rfl
    next => exact .inl rfl
  refine ⟨⟨represents.healthy.stores, represents.healthy.up⟩, represents.plain, represents.root, ?_, ?_, ?_, represents.bytes⟩
  · intro other path member
    refine represents.keys other path ?_
    obtain ⟨cell, found⟩ := NamespaceTree.mem_iff_lookup.mp member
    rcases looked other path with same | mapped
    · exact NamespaceTree.mem_iff_lookup.mpr ⟨cell, same ▸ found⟩
    · rw [mapped] at found
      obtain ⟨old, before, _⟩ := Option.map_eq_some_iff.mp found
      exact NamespaceTree.mem_iff_lookup.mpr ⟨old, before⟩
  · intro other
    obtain ⟨cell, md, found, holds⟩ := represents.roots other
    rcases looked other ['/'] with same | mapped
    · exact ⟨cell, md, same.trans found, holds⟩
    · exact ⟨_, md, by rw [mapped, found, Option.map_some], holds.collapse deployment.ndebug count⟩
  · intro path
    have stands := represents.entries path
    rcases looked (deployment.metadataHost path) path with same | mapped
    · rwa [same]
    · rw [mapped]
      cases named : fs path with
      | none =>
        rw [named] at stands
        rw [show _ = none from stands]
        rfl
      | some node =>
        rw [named] at stands
        obtain ⟨cell, md, found, holds, fields⟩ := stands
        exact ⟨_, md, by rw [found, Option.map_some], holds.collapse deployment.ndebug count, fields⟩

end Changes

section Calls
variable {deployment : Deployment} {pools : Nat → IoPool} {client : Client deployment} {fs : FileSystem} {path : Str}
  {cluster : Cluster}

/-- The call returns what is specified, and the hosts hold the specified file system then. -/
def Simulates (caller : Caller deployment) (fs : FileSystem) (path : Str) (call : Call) (cluster : Cluster) : Prop :=
  ∃ result after, caller.exec path call cluster = (some result, after) ∧ Agrees result (fs.perform path call).1 ∧
    Represents deployment (fs.perform path call).2 after

section Results
variable {caller : Caller deployment} {call : Call}

theorem Represents.refused (represents : Represents deployment fs cluster) {errno : Int}
    (ran : caller.exec path call cluster = (some (.error errno), cluster)) (specified : fs.perform path call = (.error errno, fs)) :
    Simulates caller fs path call cluster :=
  ⟨_, _, ran, by rw [specified]; rfl, by rw [specified]; exact represents⟩

theorem Represents.succeeded {next : FileSystem} {after : Cluster} (represents : Represents deployment next after)
    (ran : caller.exec path call cluster = (some (.ok .done), after)) (specified : fs.perform path call = (.ok .done, next)) :
    Simulates caller fs path call cluster :=
  ⟨_, _, ran, by rw [specified]; trivial, by rw [specified]; exact represents⟩

end Results

theorem exec_reply {α β : Type} {program : Prog (SysResult α)} {result : SysResult α} {after : Cluster} (reply : α → β)
    (ran : (Cluster.server deployment pools).exec program cluster = (some result, after)) :
    (Cluster.server deployment pools).exec (do return (← program).map reply) cluster = (some (result.map reply), after) := by
  rw [Program.bind_eq, Server.exec_bind, ran]
  rfl

end Calls

end GekkoFwd.Proofs.FileSystemRefinement
