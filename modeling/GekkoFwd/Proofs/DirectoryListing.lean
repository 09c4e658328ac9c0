import Mathlib.Algebra.Order.BigOperators.Group.List
import Mathlib.Data.List.Sort
import GekkoFwd.Proofs.ClientSpec

/-! What a directory listing returns. The scan of a database finds the keys that
continue the directory's path, the buffer carries names and types to the client, and
the hosts contribute disjoint parts. -/

namespace GekkoFwd.Proofs.DirectoryListing
open RpcProgram ClientOps ClientSpec

/-! The transfer buffer. -/

section Buffer
open Dirents

theorem takeWhile_plain {name : Str} (plain : nul ∉ name) : (name.takeWhile fun c => c != nul) = name := by
  rw [List.takeWhile_eq_self_iff]
  intro c member
  have other : c ≠ nul := fun same => plain (same ▸ member)
  simpa using other

theorem strcpy_eq {name : Str} (plain : nul ∉ name) : strcpy name = name ++ [nul] := by
  rw [strcpy, takeWhile_plain plain, List.rightpad, Nat.add_sub_cancel_left]
  rfl

theorem cString_append {name rest : Str} (plain : nul ∉ name) : cString (name ++ nul :: rest) = some name := by
  have ended : nul ∈ name ++ nul :: rest := by simp
  rw [cString, if_pos ended, List.takeWhile_append_of_pos]
  · simp
  · intro c member
    have other : c ≠ nul := fun same => plain (same ▸ member)
    simpa using other

theorem boolChar_bne (isDir : Bool) : (boolChar isDir != nul) = isDir := by
  cases isDir <;> rfl

theorem length_strcpy (name : Str) : (strcpy name).length = name.length + 1 := by
  have shorter := (List.takeWhile_prefix (l := name) fun c => c != nul).length_le
  rw [strcpy, List.length_rightpad]
  omega

theorem length_strcpys (entries : List (Str × Bool)) :
    entries.length + (entries.flatMap fun entry => strcpy entry.1).length = outSize entries := by
  induction entries with
  | nil => rfl
  | cons entry entries ih =>
    simp only [outSize, List.flatMap_cons, List.length_append, List.length_cons, List.map_cons, List.sum_cons, length_strcpy] at ih ⊢
    omega

private theorem recvDirents_succ {ndebug : Bool} {size remaining boolPtr namesPtr : Nat} {base name : Str} {isDir : Char}
    {rest : List (Str × Bool)} (inside : 0 < namesPtr ∧ namesPtr < size) (flag : base[boolPtr]? = some isDir)
    (named : cString (base.drop namesPtr) = some name)
    (received : recvDirents ndebug size base remaining (boolPtr + 1) (namesPtr + name.length + 1) = some rest) :
    recvDirents ndebug size base (remaining + 1) boolPtr namesPtr = some ((name, isDir != nul) :: rest) := by
  simp [recvDirents, flag, named, received, inside]

/-- The client's loop reads back what the daemon's loop has written, from any entry on and
whatever lies behind it. -/
private theorem recvDirents_from {ndebug : Bool} {size : Nat} (behind : Str) (done rest : List (Str × Bool))
    (plain : ∀ entry ∈ done ++ rest, nul ∉ entry.1) (fits : outSize (done ++ rest) ≤ size) :
    recvDirents ndebug size (outBuff (done ++ rest) ++ behind) rest.length done.length
      ((done ++ rest).length + (done.flatMap fun entry => strcpy entry.1).length) = some rest := by
  induction rest generalizing done with
  | nil => rfl
  | cons entry rest ih =>
    have here := plain entry (by simp)
    have flag : (outBuff (done ++ entry :: rest) ++ behind)[done.length]? = some (boolChar entry.2) := by
      simp [outBuff]
    have named : (outBuff (done ++ entry :: rest) ++ behind).drop
        ((done ++ entry :: rest).length + (done.flatMap fun entry => strcpy entry.1).length) =
        entry.1 ++ nul :: ((rest.flatMap fun entry => strcpy entry.1) ++ behind) := by
      rw [outBuff, List.append_assoc, ← List.drop_drop, List.drop_left' (by simp), List.flatMap_append, List.append_assoc,
        List.drop_left, List.flatMap_cons, strcpy_eq here, List.append_assoc, List.append_assoc, List.singleton_append]
    have total := length_strcpys (done ++ entry :: rest)
    have next := ih (done ++ [entry]) (by simpa using plain) (by simpa using fits)
    simp only [List.flatMap_append, List.flatMap_cons, List.length_append, List.length_cons, List.length_nil, List.flatMap_nil,
      List.append_nil, List.append_assoc, List.singleton_append, strcpy_eq here, Nat.zero_add, ← Nat.add_assoc] at total next named ⊢
    have received := recvDirents_succ ⟨by omega, by omega⟩ flag (named ▸ cString_append here) next
    rwa [boolChar_bne] at received

theorem recvDirents_outBuff {ndebug : Bool} {size : Nat} {entries : List (Str × Bool)} (plain : ∀ entry ∈ entries, nul ∉ entry.1)
    (fits : outSize entries ≤ size) (behind : Str) :
    recvDirents ndebug size (outBuff entries ++ behind) entries.length 0 entries.length = some entries :=
  recvDirents_from behind [] entries plain fits

end Buffer

/-! The scan of one database. -/

section Scan
variable {ndebug : Bool} {db : MetadataDb} {dir : Str}

def record (ndebug : Bool) (db : MetadataDb) (key : Str) : Except Exn Metadata := do
  let value ← db.get .default ndebug key
  Metadata.parse .default ndebug value

/-- Every stored value can be merged and parsed. -/
def Readable (ndebug : Bool) (db : MetadataDb) : Prop := ∀ key ∈ db, ∃ md, record ndebug db key = .ok md

def isDirectory (ndebug : Bool) (db : MetadataDb) (key : Str) : Bool :=
  match record ndebug db key with
  | .ok md => Mode.isDir md.mode
  | .error _ => false

/-- What lies directly below the prefix. -/
def Listed (root key : Str) : Prop := root <+: key ∧ key.length ≠ root.length ∧ '/' ∉ key.drop root.length

instance (root key : Str) : Decidable (Listed root key) := inferInstanceAs (Decidable (_ ∧ _))

def children (ndebug : Bool) (db : MetadataDb) (dir : Str) : List (Str × Bool) :=
  (db.sortedKeys.filter fun key => Listed (MetadataDb.rootPath dir) key).map fun key =>
    (key.drop (MetadataDb.rootPath dir).length, isDirectory ndebug db key)

theorem scan_sortedKeys (root : Str) (db : MetadataDb) :
    PrefixScan.scan root db.sortedKeys = db.sortedKeys.filter fun key => root.isPrefixOf key :=
  PrefixScan.scan_eq_filter (List.pairwise_mergeSort' (· ≤ ·) db.keys)

theorem mem_sortedKeys {key : Str} : key ∈ db.sortedKeys ↔ key ∈ db :=
  List.mem_mergeSort

private theorem dirent_eq {root key : Str} (readable : Readable ndebug db) (stored : key ∈ db) :
    (do MetadataDb.dirent .default ndebug root key (← db.get .default ndebug key)) =
      .ok (if key.length ≠ root.length ∧ '/' ∉ key.drop root.length then
        some (key.drop root.length, isDirectory ndebug db key) else none) := by
  obtain ⟨md, found⟩ := readable key stored
  rw [isDirectory, found]
  rw [record] at found
  cases read : db.get .default ndebug key with
  | error error =>
    rw [read] at found
    cases found
  | ok value =>
    have parsed : Metadata.parse .default ndebug value = .ok md := by rwa [read] at found
    simp only [bind, Except.bind, MetadataDb.dirent, parsed, ne_eq]
    by_cases same : key.length = root.length
    · simp [same]
    · by_cases deeper : '/' ∈ key.drop root.length
      · simp [deeper]
      · rw [if_neg same, if_neg deeper, if_pos ⟨same, deeper⟩]
        rfl

private theorem filterMap_filter_eq_map (root : Str) (flag : Str → Bool) (keys : List Str) :
    (keys.filter fun key => root.isPrefixOf key).filterMap (fun key =>
        if key.length ≠ root.length ∧ '/' ∉ key.drop root.length then some (key.drop root.length, flag key) else none) =
      (keys.filter fun key => Listed root key).map fun key => (key.drop root.length, flag key) := by
  induction keys with
  | nil => rfl
  | cons key keys ih =>
    by_cases below : root <+: key
    · rw [List.filter_cons_of_pos (List.isPrefixOf_iff_prefix.mpr below), List.filterMap_cons, ih]
      by_cases named : key.length ≠ root.length ∧ '/' ∉ key.drop root.length
      · have listed : Listed root key := ⟨below, named⟩
        rw [if_pos named, List.filter_cons_of_pos (by simpa using listed), List.map_cons]
      · rw [if_neg named, List.filter_cons_of_neg (by simpa using fun listed : Listed root key => named listed.2)]
    · rw [List.filter_cons_of_neg (fun continued => below (List.isPrefixOf_iff_prefix.mp continued)), ih,
        List.filter_cons_of_neg (by simpa using fun listed : Listed root key => below listed.1)]

/-- The scan of a database finds the keys that lie directly below the directory. -/
theorem getDirents_eq (absolute : Path.isAbsolute dir = true) (readable : Readable ndebug db) :
    db.getDirents .default ndebug dir = .ok (children ndebug db dir) := by
  simp only [MetadataDb.getDirents, absolute, assertThat_true, scan_sortedKeys]
  rw [MapM.mapM_eq_pure_map fun key member => dirent_eq readable (mem_sortedKeys.mp (List.mem_of_mem_filter member))]
  change Except.ok (List.filterMap (fun entry => entry) (List.map _ _)) = _
  rw [List.filterMap_map, children, ← filterMap_filter_eq_map]
  rfl

/-- A host answers about every directory. -/
theorem isSome_rpcSrvGetDirents (absolute : Path.isAbsolute dir = true) (readable : Readable ndebug db) (bulkSize : Nat) :
    (Daemon.rpcSrvGetDirents ndebug dir bulkSize db).isSome := by
  rw [Daemon.rpcSrvGetDirents, getDirents_eq absolute readable]
  dsimp only
  split
  next => rfl
  next => split <;> rfl

theorem listed_append {root name : Str} : Listed root (root ++ name) ↔ name ≠ [] ∧ '/' ∉ name := by
  simp [Listed]

theorem mem_children {name : Str} {flag : Bool} :
    (name, flag) ∈ children ndebug db dir ↔ (name ≠ [] ∧ '/' ∉ name) ∧ MetadataDb.rootPath dir ++ name ∈ db ∧
      flag = isDirectory ndebug db (MetadataDb.rootPath dir ++ name) := by
  simp only [children, List.mem_map, List.mem_filter, decide_eq_true_eq, Prod.mk.injEq, mem_sortedKeys]
  constructor
  · rintro ⟨key, ⟨stored, listed⟩, rfl, rfl⟩
    obtain ⟨name, rfl⟩ := listed.1
    rw [List.drop_left]
    exact ⟨listed_append.mp listed, stored, rfl⟩
  · rintro ⟨plain, stored, rfl⟩
    exact ⟨_, ⟨stored, listed_append.mpr plain⟩, List.drop_left, rfl⟩

theorem nodup_children (ndebug : Bool) (db : MetadataDb) (dir : Str) : ((children ndebug db dir).map Prod.fst).Nodup := by
  apply List.Nodup.of_map (MetadataDb.rootPath dir ++ ·)
  have keys : ((children ndebug db dir).map Prod.fst).map (MetadataDb.rootPath dir ++ ·) =
      db.sortedKeys.filter fun key => Listed (MetadataDb.rootPath dir) key := by
    rw [children, List.map_map, List.map_map]
    refine (List.map_congr_left fun key member => ?_).trans (List.map_id _)
    obtain ⟨name, rfl⟩ := (of_decide_eq_true (List.mem_filter.mp member).2).1
    simp
  rw [keys]
  exact (List.nodup_mergeSort.mpr db.nodupKeys).filter _

theorem outSize_eq_sum (entries : List (Str × Bool)) : Dirents.outSize entries = (entries.map fun entry => entry.1.length + 2).sum := by
  induction entries with
  | nil => rfl
  | cons entry entries ih =>
    simp only [Dirents.outSize, List.map_cons, List.sum_cons, List.length_cons] at ih ⊢
    omega

/-- A listing is never larger than the keys it comes from. -/
theorem outSize_children_le (ndebug : Bool) (db : MetadataDb) (dir : Str) :
    Dirents.outSize (children ndebug db dir) ≤ (db.keys.map fun key => key.length + 2).sum := by
  rw [outSize_eq_sum, children, List.map_map]
  calc
    _ ≤ ((db.sortedKeys.filter fun key => Listed (MetadataDb.rootPath dir) key).map fun key => key.length + 2).sum := by
      refine List.sum_le_sum fun key _ => ?_
      simp only [Function.comp_apply, List.length_drop]
      omega
    _ ≤ (db.sortedKeys.map fun key => key.length + 2).sum := (List.filter_sublist.map _).sum_le_sum fun _ _ => Nat.zero_le _
    _ = _ := ((List.mergeSort_perm db.keys _).map _).sum_eq

theorem record_of_holds {key : Str} {cell : Cell} {md : Metadata} (found : db.lookup key = some cell)
    (holds : MergeLaws.Holds ndebug MergeLaws.Signed cell md) : record ndebug db key = .ok md := by
  simp only [record, MetadataDb.get, MetadataDb.cell_of_lookup found, holds.value, bind, Except.bind,
    MergeLaws.parse_serialize _ holds.recorded]

theorem record_of_put {key : Str} {mode : Mode}
    (found : db.lookup key = some ⟨some ((Metadata.ofMode mode).serialize .default), []⟩) :
    record ndebug db key = .ok (Metadata.ofMode mode) :=
  record_of_holds found (.put (MergeLaws.recorded_ofMode mode))

end Scan

/-! The listing of a directory over all hosts. -/

section Hosts
variable {deployment : Deployment} {pools : Nat → IoPool} {cluster : Cluster} {dir : Str}

/-- What `put` asserts of a key, which is a C string besides. -/
@[mk_iff] structure IsKey (key : Str) : Prop where
  absolute : Path.isAbsolute key = true
  ended : key = ['/'] ∨ Path.hasTrailingSlash key = false
  plain : Dirents.nul ∉ key

instance (key : Str) : Decidable (IsKey key) := decidable_of_iff' _ (isKey_iff key)

/-- A path is stored on its host only, the root on every host, all can be read, and every
daemon serves. -/
structure Placed (deployment : Deployment) (cluster : Cluster) : Prop where
  up : cluster.Up
  keys : ∀ host < deployment.hosts, ∀ key ∈ cluster.mdb host, IsKey key
  placed : ∀ host < deployment.hosts, ∀ key ∈ cluster.mdb host, key ≠ ['/'] → host = deployment.metadataHost key
  root : ∀ host < deployment.hosts, ['/'] ∈ cluster.mdb host
  readable : ∀ host < deployment.hosts, Readable deployment.ndebug (cluster.mdb host)

/-- The path of an entry of a directory. -/
def childPath (dir name : Str) : Str := if dir = ['/'] then '/' :: name else dir ++ '/' :: name

theorem rootPath_append {name : Str} (absolute : Path.isAbsolute dir = true) (ended : dir = ['/'] ∨ Path.hasTrailingSlash dir = false) :
    MetadataDb.rootPath dir ++ name = childPath dir name := by
  rw [MetadataDb.rootPath, childPath]
  by_cases top : dir = ['/']
  · rw [if_pos top, top]
    rfl
  · have longer : dir.length ≠ 1 := by
      intro single
      obtain ⟨c, rfl⟩ := List.length_eq_one_iff.mp single
      simp only [Path.isAbsolute, beq_iff_eq] at absolute
      exact top (by rw [absolute])
    simp [top, ended.resolve_left top, longer]

/-- A canonical path is an entry of the directory above it. -/
theorem eq_childPath {key : Str} (canonical : Path.Canonical key) (notRoot : key ≠ ['/']) :
    ∃ name, Path.IsName name ∧ key = childPath (Path.dirname key) name := by
  obtain ⟨names, name, valid, last, rfl⟩ := canonical.cases.resolve_left notRoot
  refine ⟨name, last, ?_⟩
  rw [Path.dirname_join_concat names last, childPath, Path.join_concat]
  by_cases top : names = []
  · rw [if_pos top, if_pos ((Path.join_eq_root valid).mpr top)]
    rfl
  · rw [if_neg top, if_neg ((Path.join_eq_root valid).not.mpr top)]

theorem childPath_ne_self {name : Str} (nonempty : name ≠ []) : childPath dir name ≠ dir := by
  intro same
  have equal := congrArg List.length same
  rw [childPath] at equal
  split at equal
  next top => simp [top, nonempty] at equal
  next => simp at equal

theorem childPath_ne_root {name : Str} (nonempty : name ≠ []) : childPath dir name ≠ ['/'] := by
  rw [childPath]
  split
  next => exact fun same => nonempty (List.cons.inj same).2
  next =>
    intro same
    have short := congrArg List.length same
    have long := List.length_pos_of_ne_nil nonempty
    simp only [List.length_append, List.length_cons, List.length_nil] at short
    omega

theorem stored_of_entry {path : Str} {md : Metadata} (found : entry deployment cluster path = .ok md) :
    path ∈ cluster.mdb (deployment.metadataHost path) := by
  by_contra missing
  rw [entry_of_lookup_none (AList.lookup_eq_none.mpr missing)] at found
  cases found

/-- What one host contributes arrives as it was found. -/
theorem hostDirents_eq (valid : Placed deployment cluster) (key : IsKey dir) {host : Nat} (known : host < deployment.hosts)
    (fits : Dirents.outSize (children deployment.ndebug (cluster.mdb host) dir) ≤ perHostBuffSize deployment) :
    hostDirents deployment cluster dir host = some (children deployment.ndebug (cluster.mdb host) dir) := by
  have plain : ∀ entry ∈ children deployment.ndebug (cluster.mdb host) dir, Dirents.nul ∉ entry.1 := by
    intro entry member
    obtain ⟨_, stored, _⟩ := mem_children.mp member
    exact fun inside => (valid.keys host known _ stored).plain (List.mem_append_right _ inside)
  rw [hostDirents, Daemon.rpcSrvGetDirents, getDirents_eq key.absolute (valid.readable host known)]
  dsimp only
  split
  next empty => rw [List.isEmpty_iff.mp empty]; rfl
  next =>
    rw [if_neg (Nat.not_lt.mpr fits)]
    exact List.append_nil (Dirents.outBuff _) ▸ recvDirents_outBuff plain fits []

theorem gathered_eq (valid : Placed deployment cluster) (key : IsKey dir)
    (fits : ∀ host < deployment.hosts, Dirents.outSize (children deployment.ndebug (cluster.mdb host) dir) ≤ perHostBuffSize deployment) :
    (List.range deployment.hosts).mapM (hostDirents deployment cluster dir) =
      some ((List.range deployment.hosts).map fun host => children deployment.ndebug (cluster.mdb host) dir) :=
  MapM.mapM_eq_pure_map fun host member =>
    hostDirents_eq valid key (List.mem_range.mp member) (fits host (List.mem_range.mp member))

/-- The hosts have different entries of a directory. -/
theorem nodup_gathered (valid : Placed deployment cluster) (key : IsKey dir) :
    (((List.range deployment.hosts).map fun host => children deployment.ndebug (cluster.mdb host) dir).flatten.map Prod.fst).Nodup := by
  rw [List.map_flatten, List.map_map, List.nodup_flatten]
  constructor
  · intro names member
    obtain ⟨host, _, rfl⟩ := List.mem_map.mp member
    exact nodup_children _ _ _
  · rw [List.pairwise_map]
    refine (List.pairwise_lt_range (n := deployment.hosts)).imp_of_mem ?_
    intro first second known known' earlier name member member'
    obtain ⟨⟨_, flag⟩, listed, rfl⟩ := List.mem_map.mp member
    obtain ⟨⟨_, flag'⟩, listed', same⟩ := List.mem_map.mp member'
    obtain ⟨plain, stored, _⟩ := mem_children.mp listed
    obtain ⟨_, stored', _⟩ := mem_children.mp listed'
    rw [rootPath_append key.absolute key.ended] at stored stored'
    simp only at same
    rw [same] at stored'
    have elsewhere := @childPath_ne_root dir _ plain.1
    have here := valid.placed first (List.mem_range.mp known) _ stored elsewhere
    have there := valid.placed second (List.mem_range.mp known') _ stored' elsewhere
    exact absurd (here.trans there.symm) (Nat.ne_of_lt earlier)

theorem mem_gathered (valid : Placed deployment cluster) (key : IsKey dir) {name : Str} {flag : Bool} :
    (name, flag) ∈ ((List.range deployment.hosts).map fun host => children deployment.ndebug (cluster.mdb host) dir).flatten ↔
      (name ≠ [] ∧ '/' ∉ name) ∧ ∃ host < deployment.hosts, ∃ md, childPath dir name ∈ cluster.mdb host ∧
        record deployment.ndebug (cluster.mdb host) (childPath dir name) = .ok md ∧ flag = Mode.isDir md.mode := by
  simp only [List.mem_flatten, List.mem_map, List.mem_range, exists_exists_and_eq_and, mem_children, rootPath_append key.absolute key.ended]
  constructor
  · rintro ⟨host, known, plain, stored, rfl⟩
    obtain ⟨md, found⟩ := valid.readable host known _ stored
    exact ⟨plain, host, known, md, stored, found, by rw [isDirectory, found]⟩
  · rintro ⟨plain, host, known, md, stored, found, rfl⟩
    exact ⟨host, known, plain, stored, by rw [isDirectory, found]⟩

/-- The entries that `gkfs_opendir` collects are the stored children of the directory,
each once and with its type. -/
theorem listing_is_exact (client : Client deployment) (valid : Placed deployment cluster) {md : Metadata}
    (found : entry deployment cluster dir = .ok md) (directory : Mode.isDir md.mode = true)
    (fits : ∀ host < deployment.hosts, ∀ entries, (cluster.mdb host).getDirents .default deployment.ndebug dir = .ok entries →
      Dirents.outSize entries ≤ perHostBuffSize deployment) :
    ∃ entries, (Cluster.server deployment pools).exec (gkfsOpendir client dir) cluster = (some (.ok entries), cluster) ∧
      (entries.map Prod.fst).Nodup ∧
      ∀ name flag, (name, flag) ∈ entries ↔ (name ≠ [] ∧ '/' ∉ name) ∧ ∃ host < deployment.hosts, ∃ child,
        childPath dir name ∈ cluster.mdb host ∧ record deployment.ndebug (cluster.mdb host) (childPath dir name) = .ok child ∧
          flag = Mode.isDir child.mode := by
  have key := valid.keys _ (Nat.mod_lt _ deployment.hosts_pos) _ (stored_of_entry found)
  refine ⟨_, ?_, nodup_gathered valid key, fun name flag => mem_gathered valid key⟩
  have received := gathered_eq valid key fun host known => fits host known _ (getDirents_eq key.absolute (valid.readable host known))
  rw [gkfsOpendir, Program.bind_eq, Server.exec_bind, exec_getMetadata_ok valid.up found rfl]
  simp only [directory, Bool.not_true, Bool.false_eq_true, if_false, Program.bind_eq, Server.exec_bind,
    serves_forwardGetDirents valid.up fun host known => isSome_rpcSrvGetDirents key.absolute (valid.readable host known) _, received,
    Option.map_some]
  rfl

/-- A directory `/top` on two hosts, between names that sort around it. -/
private def crowded : Cluster where
  mdb host :=
    let directory : Cell := ⟨some ((Metadata.ofMode Mode.ifdir).serialize .default), []⟩
    let file : Cell := ⟨some ((Metadata.ofMode Mode.ifreg).serialize .default), []⟩
    if host = 0 then
      [⟨"/".toList, directory⟩, ⟨"/top".toList, directory⟩, ⟨"/top/f".toList, file⟩, ⟨"/top_x".toList, file⟩].toAList
    else [⟨"/".toList, directory⟩, ⟨"/top/dd".toList, directory⟩, ⟨"/top/dd/g".toList, file⟩].toAList
  storage _ := ∅
  down _ := false

private theorem forall_crowded {p : Nat → Str → Prop}
    (first : ∀ key ∈ ["/".toList, "/top".toList, "/top/f".toList, "/top_x".toList], p 0 key)
    (second : ∀ key ∈ ["/".toList, "/top/dd".toList, "/top/dd/g".toList], p 1 key) :
    ∀ host < 2, ∀ key ∈ crowded.mdb host, p host key := by
  intro host known key stored
  match host, known with
  | 0, _ => exact first key stored
  | 1, _ => exact second key stored

private theorem placed_crowded : Placed (.pair List.length) crowded where
  up _ := rfl
  keys := forall_crowded (by decide) (by decide)
  placed := forall_crowded (p := fun host key => key ≠ ['/'] → host = Deployment.metadataHost (.pair List.length) key)
    (by decide) (by decide)
  root := by decide
  readable := by
    apply forall_crowded (p := fun host key => ∃ md, record _ (crowded.mdb host) key = .ok md)
    · simp only [List.forall_mem_cons]
      exact ⟨⟨_, record_of_put rfl⟩, ⟨_, record_of_put rfl⟩, ⟨_, record_of_put rfl⟩, ⟨_, record_of_put rfl⟩, nofun⟩
    · simp only [List.forall_mem_cons]
      exact ⟨⟨_, record_of_put rfl⟩, ⟨_, record_of_put rfl⟩, ⟨_, record_of_put rfl⟩, nofun⟩

theorem listing_is_exact_crowded : ∃ entries,
    (Cluster.server (.pair List.length) default).exec (gkfsOpendir (.first (.pair List.length)) "/top".toList) crowded =
      (some (.ok entries), crowded) ∧ ("f".toList, false) ∈ entries ∧ ("dd".toList, true) ∈ entries := by
  have fits : ∀ host < 2, ∀ entries, (crowded.mdb host).getDirents .default true "/top".toList = .ok entries →
      Dirents.outSize entries ≤ perHostBuffSize (.pair List.length) := by
    intro host known entries listed
    cases (getDirents_eq (by decide) (placed_crowded.readable host known)).symm.trans listed
    refine (outSize_children_le true _ _).trans ?_
    match host, known with
    | 0, _ => decide
    | 1, _ => decide
  obtain ⟨entries, ran, _, exact_⟩ := listing_is_exact (.first (.pair List.length)) placed_crowded
    (show entry _ crowded "/top".toList = .ok (Metadata.ofMode Mode.ifdir) from record_of_put rfl) rfl fits
  refine ⟨entries, ran, (exact_ _ _).mpr ⟨by decide, 0, by decide, _, by decide, record_of_put rfl, rfl⟩,
    (exact_ _ _).mpr ⟨by decide, 1, by decide, _, by decide, record_of_put rfl, rfl⟩⟩

end Hosts
end GekkoFwd.Proofs.DirectoryListing
