import GekkoFwd.Rpc
import GekkoFwd.Proofs.StorageSpec

/-! Which files share chunks. Each operation of a daemon on a file changes nothing but
the file's directory and the names directly in it, whatever the state of the store;
two files are kept apart as long as these places are. -/

namespace GekkoFwd.Proofs.StorageIsolation
open ChunkStorage LocalFs StorageSpec

/-- The operations of a daemon on the data of a file. -/
inductive Operation where
  | writeChunk (chunkId : Nat) (buff : List Byte) (offset : Nat) (outcome : PwriteOutcome)
  | truncateChunk (chunkId length : Nat)
  | trimChunkSpace (chunkStart : Nat)
  | removeNode (db : MetadataDb)

/-- The store after an operation, also when it throws. -/
def Operation.apply (ndebug : Bool) (path : Str) (storage : Storage) : Operation → Storage
  | .writeChunk chunkId buff offset outcome => (ChunkStorage.writeChunk ndebug path chunkId buff offset outcome storage).2
  | .truncateChunk chunkId length => (ChunkStorage.truncateChunk ndebug path chunkId length storage).2
  | .trimChunkSpace chunkStart => (ChunkStorage.trimChunkSpace ndebug path chunkStart storage).2
  | .removeNode db => (Daemon.rpcSrvRemove ndebug path db storage).2.2

def fileAt (storage : Storage) (path : List Str) : Option (List Byte) :=
  match storage.get path with
  | some (.file content) => some content
  | _ => none

/-- The contents of a chunk at the place where the file has it. -/
def chunkOf (ndebug : Bool) (storage : Storage) (path : Str) (chunkId : Nat) : Option (List Byte) :=
  match chunkFile ndebug path chunkId with
  | .error _ => none
  | .ok file => fileAt storage file

/-- Operations on `p` leave every chunk of `q` alone, and the directory of `p` is
neither that of `q` nor above it. -/
structure Isolated (ndebug : Bool) (p q : Str) : Prop where
  chunks : ∀ (operation : Operation) (storage : Storage) (chunkId : Nat), chunkId < 2 ^ 32 →
    chunkOf ndebug (operation.apply ndebug p storage) q chunkId = chunkOf ndebug storage q chunkId
  dirs : ∀ dir other, chunkDir ndebug p = .ok dir → chunkDir ndebug q = .ok other → ¬dir <+: other

section Frame
variable {dir : List Str} {storage after : Storage}

/-- Nothing has changed but names in `dir`, except that a missing directory may have
been made. -/
def Local (dir : List Str) (storage after : Storage) : Prop :=
  ∀ path, (∀ name, path ≠ dir ++ [name]) →
    after.get path = storage.get path ∨ (storage.get path = none ∧ after.get path = some .dir)

theorem Local.refl (dir : List Str) (storage : Storage) : Local dir storage storage := fun _ _ => .inl rfl

theorem Local.trans {between : Storage} (first : Local dir storage between) (second : Local dir between after) :
    Local dir storage after := by
  intro path outside
  rcases first path outside with same | ⟨missing, made⟩ <;> rcases second path outside with same' | ⟨missing', made'⟩
  · exact .inl (same'.trans same)
  · exact .inr ⟨same ▸ missing', made'⟩
  · exact .inr ⟨missing, same'.trans made⟩
  · exact .inr ⟨missing, made'⟩

theorem local_insert (name : Str) (node : Node Byte) : Local dir storage (storage.insert (dir ++ [name]) node) := by
  intro path outside
  left
  rw [FileTree.get_insert, if_neg (outside name)]

theorem local_mkdir (made : storage.mkdir dir = .ok after) : Local dir storage after := by
  intro path _
  rw [FileTree.mkdir] at made
  split at made
  next => cases made
  next => cases made
  next found =>
    cases made
    have missing : storage.get dir = none := by
      rw [FileTree.find] at found
      split at found
      next => cases found
      next => exact Except.ok.inj found
    rw [FileTree.get_insert]
    split
    next same => exact .inr ⟨same ▸ missing, rfl⟩
    next => exact .inl rfl

theorem local_openCreate {name : Str} (opened : storage.openCreate (dir ++ [name]) = .ok after) : Local dir storage after := by
  rw [FileTree.openCreate] at opened
  split at opened <;> cases opened
  · exact .refl _ _
  · exact local_insert name _

theorem local_pwrite (name : Str) (data : List Byte) (offset : Nat) :
    Local dir storage (storage.pwrite (dir ++ [name]) data offset) := by
  rw [FileTree.pwrite]
  split
  next => exact local_insert name _
  next => exact .refl _ _

theorem local_trimEntries (chunkStart chunkEnd : Nat) (names : List Str) (storage : Storage) :
    Local dir storage (trimEntries dir chunkStart chunkEnd names storage).2 := by
  induction names generalizing storage with
  | nil => exact .refl _ _
  | cons name names ih =>
    rw [trimEntries]
    split
    next => exact .refl _ _
    next => exact .refl _ _
    next =>
      split
      next =>
        split
        next => exact .refl _ _
        next rest unlinked =>
          refine .trans (fun path outside => ?_) (ih rest)
          rw [FileTree.unlink] at unlinked
          split at unlinked <;> cases unlinked
          left
          rw [FileTree.get_erase, if_neg (outside name)]
      next => exact ih storage

end Frame

section Places
variable {ndebug : Bool} {path : Str}

/-- Where a file has its chunks. The root has no place unless assertions are compiled
out, and is then the whole store. -/
def place (ndebug : Bool) (path : Str) : Option (List Str) :=
  if path = ['/'] then (if ndebug then some [] else none) else some [dirName path]

theorem chunkDir_eq (canonical : Path.Canonical path) :
    chunkDir ndebug path = (place ndebug path).elim (.error .assertion) .ok := by
  by_cases root : path = ['/']
  · subst root
    rw [chunkDir_root]
    cases ndebug <;> rfl
  · rw [chunkDir_file ⟨canonical, root⟩, place, if_neg root]
    rfl

theorem chunkFile_eq (canonical : Path.Canonical path) (chunkId : Nat) : chunkFile ndebug path chunkId =
    (place ndebug path).elim (.error .assertion) fun dir => .ok (dir ++ [DecText.toText chunkId]) := by
  by_cases root : path = ['/']
  · subst root
    rw [chunkFile_root]
    cases ndebug <;> rfl
  · rw [chunkFile_file ⟨canonical, root⟩, place, if_neg root]
    rfl

/-- Without a place every operation throws before it does anything. -/
theorem apply_nowhere (canonical : Path.Canonical path) (nowhere : place ndebug path = none) (operation : Operation)
    (storage : Storage) : operation.apply ndebug path storage = storage := by
  have noDir : chunkDir ndebug path = .error .assertion := by rw [chunkDir_eq canonical, nowhere]; rfl
  have noFile : ∀ chunkId, chunkFile ndebug path chunkId = .error .assertion := by
    intro chunkId
    rw [chunkFile_eq canonical, nowhere]
    rfl
  cases operation with
  | writeChunk chunkId buff offset outcome =>
    simp only [Operation.apply, writeChunk, initChunkSpace, noDir]
    split <;> rfl
  | truncateChunk chunkId length => simp only [Operation.apply, truncateChunk, noFile]
  | trimChunkSpace chunkStart => simp only [Operation.apply, trimChunkSpace, noDir]
  | removeNode db => simp only [Operation.apply, Daemon.rpcSrvRemove, destroyChunkSpace, noDir]

theorem get_removeNode {dir : List Str} (canonical : Path.Canonical path) (placed : place ndebug path = some dir)
    (db : MetadataDb) (storage : Storage) (other : List Str) :
    ((Operation.removeNode db).apply ndebug path storage).get other = if dir <+: other then none else storage.get other := by
  have found : chunkDir ndebug path = .ok dir := by rw [chunkDir_eq canonical, placed]; rfl
  simp only [Operation.apply, Daemon.rpcSrvRemove, destroyChunkSpace, found]
  exact FileTree.get_removeAll _ _ _

private theorem local_initChunkSpace {dir : List Str} (found : chunkDir ndebug path = .ok dir) (storage : Storage) :
    Local dir storage (initChunkSpace ndebug path storage).2 := by
  simp only [initChunkSpace, found]
  split
  next made => exact local_mkdir made
  next => exact .refl _ _
  next => exact .refl _ _

/-- An operation that does not remove the file stays in the file's directory. -/
theorem apply_local {dir : List Str} (canonical : Path.Canonical path) (placed : place ndebug path = some dir)
    {operation : Operation} (keeps : ∀ db, operation ≠ .removeNode db) (storage : Storage) :
    Local dir storage (operation.apply ndebug path storage) := by
  have found : chunkDir ndebug path = .ok dir := by rw [chunkDir_eq canonical, placed]; rfl
  have file : ∀ chunkId, chunkFile ndebug path chunkId = .ok (dir ++ [DecText.toText chunkId]) := by
    intro chunkId
    rw [chunkFile_eq canonical, placed]
    rfl
  cases operation with
  | writeChunk chunkId buff offset outcome =>
    have started := local_initChunkSpace found storage
    simp only [Operation.apply, writeChunk, file]
    split
    next => exact .refl _ _
    next =>
      split
      next ended =>
        rw [ended] at started
        exact started
      next ended =>
        rw [ended] at started
        split
        next => exact started
        next opened =>
          refine started.trans ((local_openCreate opened).trans ?_)
          split
          next => exact .refl _ _
          next => exact local_pwrite _ _ _
  | truncateChunk chunkId length =>
    simp only [Operation.apply, truncateChunk, file, FileTree.truncate]
    split
    next => exact .refl _ _
    next =>
      split
      next => exact .refl _ _
      next cut =>
        split at cut <;> cases cut
        exact local_insert _ _
  | trimChunkSpace chunkStart =>
    simp only [Operation.apply, trimChunkSpace, found]
    split
    next => exact .refl _ _
    next => exact local_trimEntries _ _ _ _
  | removeNode db => exact absurd rfl (keeps db)

theorem chunkOf_eq (canonical : Path.Canonical path) (storage : Storage) (chunkId : Nat) :
    chunkOf ndebug storage path chunkId =
      (place ndebug path).bind fun dir => fileAt storage (dir ++ [DecText.toText chunkId]) := by
  rw [chunkOf, chunkFile_eq canonical]
  cases place ndebug path <;> rfl

end Places

/-- A path with every separator written as the store writes it. -/
def flatten (path : Str) : Str := path.map fun c => if c = '/' then ':' else c

/-- Paths that stay different when flattened; and without assertions `p` is not the
root, nor is `q` the root with a chunk where `p` has its directory. -/
structure Apart (ndebug : Bool) (p q : Str) : Prop where
  flat : flatten p ≠ flatten q
  root : ndebug = true → p ≠ ['/'] ∧ (q = ['/'] → ∀ c < 2 ^ 32, p ≠ '/' :: DecText.toText c)

section Condition
variable {ndebug : Bool} {p q : Str}

theorem head_of_canonical (canonical : Path.Canonical p) : ∃ rest, p = '/' :: rest := by
  have absolute := canonical.isAbsolute
  cases p with
  | nil => cases absolute
  | cons c rest =>
    have slash : c = '/' := by simpa [Path.isAbsolute] using absolute
    exact ⟨rest, by rw [slash]⟩

theorem flatten_eq_iff (canonicalP : Path.Canonical p) (canonicalQ : Path.Canonical q) :
    flatten p = flatten q ↔ dirName p = dirName q := by
  obtain ⟨rest, rfl⟩ := head_of_canonical canonicalP
  obtain ⟨other, rfl⟩ := head_of_canonical canonicalQ
  simp only [flatten, dirName, List.map_cons, List.tail_cons, List.cons.injEq, true_and]

/-- A directory that is named by a number belongs to the path with that name. -/
theorem dirName_eq_number (canonical : Path.Canonical p) {c : Nat} :
    dirName p = DecText.toText c ↔ p = '/' :: DecText.toText c := by
  obtain ⟨rest, rfl⟩ := head_of_canonical canonical
  have plain : ∀ {text : Str}, '/' ∉ text → text.map (fun d => if d = '/' then ':' else d) = text := by
    intro text absent
    refine (List.map_congr_left fun d member => if_neg ?_).trans (List.map_id _)
    rintro rfl
    exact absent member
  have digits : ∀ d ∈ DecText.toText c, d ≠ '/' ∧ d ≠ ':' := by
    intro d member
    have digit := DecText.isDigit_of_mem_toText member
    constructor
    all_goals
      rintro rfl
      revert digit
      decide
  rw [dirName, List.tail_cons, List.cons.injEq, and_iff_right rfl]
  constructor
  · intro same
    rw [← same, plain]
    intro slash
    exact (digits ':' (same ▸ List.mem_map.mpr ⟨'/', slash, rfl⟩)).2 rfl
  · rintro rfl
    exact plain fun slash => (digits '/' slash).1 rfl

theorem place_file (notRoot : p ≠ ['/']) : place ndebug p = some [dirName p] := if_neg notRoot

theorem dirName_eq_nil (canonical : Path.Canonical p) (empty : dirName p = []) : p = ['/'] := by
  by_contra notRoot
  exact IsFilePath.dirName_ne_nil ⟨canonical, notRoot⟩ empty

/-- Without assertions the root has the whole store for its place. -/
theorem place_isSome (ndebug : Bool) (release : ndebug = true) (path : Str) : (place ndebug path).isSome := by
  rw [place, release]
  split <;> rfl

theorem apart_of_isolated (canonicalP : Path.Canonical p) (canonicalQ : Path.Canonical q) (different : p ≠ q)
    (isolated : Isolated ndebug p q) : Apart ndebug p q := by
  have dirs : ∀ {dir other}, place ndebug p = some dir → place ndebug q = some other → ¬dir <+: other := by
    intro dir other placed placed'
    exact isolated.dirs dir other (by rw [chunkDir_eq canonicalP, placed]; rfl) (by rw [chunkDir_eq canonicalQ, placed']; rfl)
  refine ⟨fun same => ?_, fun release => ⟨?_, ?_⟩⟩
  · rw [flatten_eq_iff canonicalP canonicalQ] at same
    have notRootP : p ≠ ['/'] := by
      rintro rfl
      exact different (dirName_eq_nil canonicalQ same.symm).symm
    have notRootQ : q ≠ ['/'] := by
      rintro rfl
      exact different (dirName_eq_nil canonicalP same)
    exact dirs (place_file notRootP) (place_file notRootQ) (by rw [same])
  · rintro rfl
    obtain ⟨other, placed⟩ := Option.isSome_iff_exists.mp (place_isSome ndebug release q)
    exact dirs (by rw [place, if_pos rfl, if_pos release]) placed List.nil_prefix
  · rintro rfl c small rfl
    -- the directory of `p` is the file that the root has for its chunk `c`
    have placedRoot : place ndebug ['/'] = some [] := by rw [place, if_pos rfl, if_pos release]
    have placed : place ndebug ('/' :: DecText.toText c) = some [DecText.toText c] := by
      rw [place_file different, (dirName_eq_number canonicalP).mpr rfl]
    have kept := isolated.chunks (.removeNode ∅) (AList.insert [DecText.toText c] (.file [0]) ∅) c small
    rw [chunkOf_eq canonicalQ, chunkOf_eq canonicalQ, placedRoot, Option.bind_some, Option.bind_some, List.nil_append, fileAt,
      fileAt, get_removeNode canonicalP placed, if_pos (List.prefix_refl _), FileTree.get_insert, if_pos rfl] at kept
    cases kept

theorem isolated_of_apart (canonicalP : Path.Canonical p) (canonicalQ : Path.Canonical q) (apart : Apart ndebug p q) :
    Isolated ndebug p q := by
  have names : dirName p ≠ dirName q := mt (flatten_eq_iff canonicalP canonicalQ).mpr apart.flat
  -- where `p` has a place, it is no root, and its directory is on the way to no chunk of `q`
  have places : ∀ {dir}, place ndebug p = some dir → dir = [dirName p] := by
    intro dir placed
    rw [place] at placed
    split at placed
    next root =>
      split at placed
      next release => exact absurd root (apart.root release).1
      next => cases placed
    next => exact (Option.some.inj placed).symm
  have away : ∀ {other}, place ndebug q = some other → ∀ c < 2 ^ 32, ¬[dirName p] <+: other ++ [DecText.toText c] := by
    intro other placed c small below
    rw [place] at placed
    split at placed
    next root =>
      split at placed
      next release =>
        cases placed
        have same : dirName p = DecText.toText c := by simpa using below
        exact (apart.root release).2 root c small ((dirName_eq_number canonicalP).mp same)
      next => cases placed
    next =>
      cases placed
      exact names (by simpa using below)
  refine ⟨fun operation storage c small => ?_, fun dir other found found' below => ?_⟩
  · rw [chunkOf_eq canonicalQ, chunkOf_eq canonicalQ]
    cases placedQ : place ndebug q with
    | none => rfl
    | some other =>
      rw [Option.bind_some, Option.bind_some]
      cases placedP : place ndebug p with
      | none => rw [apply_nowhere canonicalP placedP]
      | some dir =>
        cases places placedP
        have outside := away placedQ c small
        by_cases removes : ∃ db, operation = .removeNode db
        · obtain ⟨db, rfl⟩ := removes
          rw [fileAt, get_removeNode canonicalP placedP, if_neg outside, fileAt]
        · have changed := apply_local canonicalP placedP (fun db same => removes ⟨db, same⟩) storage
            (other ++ [DecText.toText c]) (fun name same => outside ⟨[name], same.symm⟩)
          rcases changed with same | ⟨missing, made⟩
          · rw [fileAt, same, fileAt]
          · rw [fileAt, made, fileAt, missing]
  · rw [chunkDir_eq canonicalP] at found
    rw [chunkDir_eq canonicalQ] at found'
    cases placedP : place ndebug p with
    | none => rw [placedP] at found; cases found
    | some dir' =>
      cases placedQ : place ndebug q with
      | none => rw [placedQ] at found'; cases found'
      | some other' =>
        rw [placedP] at found
        rw [placedQ] at found'
        cases found
        cases found'
        cases places placedP
        exact away placedQ 0 (by decide) (below.trans (List.prefix_append _ _))

/-- Two files are isolated from each other exactly when they are apart. -/
theorem isolated_iff_apart (canonicalP : Path.Canonical p) (canonicalQ : Path.Canonical q) (different : p ≠ q) :
    Isolated ndebug p q ↔ Apart ndebug p q :=
  ⟨apart_of_isolated canonicalP canonicalQ different, isolated_of_apart canonicalP canonicalQ⟩

end Condition

/-- A file in a directory and a file with a colon in its name have the same chunks. -/
theorem colon_not_isolated : ¬Isolated true "/a/b".toList "/a:b".toList := by
  intro isolated
  have gone := isolated.chunks (.removeNode ∅) (AList.insert ["a:b".toList, ['0']] (.file [1]) ∅) 0 (by decide)
  revert gone
  decide

/-- Files with names of their own, in a build without assertions. -/
theorem isolated_iff_apart_siblings : Isolated true "/dir/a".toList "/dir/b".toList :=
  (isolated_iff_apart ⟨["dir".toList, "a".toList], by decide, by decide⟩ ⟨["dir".toList, "b".toList], by decide, by decide⟩
    (by decide)).mpr ⟨by decide, fun _ => ⟨by decide, fun root => absurd root (by decide)⟩⟩

end GekkoFwd.Proofs.StorageIsolation
