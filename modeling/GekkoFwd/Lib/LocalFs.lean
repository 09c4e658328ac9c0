import Mathlib.Data.List.AList
import Mathlib.Data.List.Infix
import GekkoFwd.Lib.ByteFile

/-! A local file system below one directory: a tree of directories and regular
files, and the POSIX calls on it with the error each of them reports. Names have a
largest length. -/

namespace LocalFs

inductive Errno where
  | enoent | eexist | enotdir | eisdir | eio | enametoolong
  deriving DecidableEq, Repr

/-- The value of `errno` on Linux. -/
def Errno.value : Errno → Int
  | .enoent => 2
  | .eio => 5
  | .eexist => 17
  | .enotdir => 20
  | .eisdir => 21
  | .enametoolong => 36

/-- `NAME_MAX`. -/
def nameMax : Nat := 255

inductive Node (β : Type*) where
  | dir
  | file (content : List β)
  deriving DecidableEq

variable {χ β : Type*}

/-- A path is the list of its names, starting below the top directory `[]`. -/
abbrev FileTree (χ β : Type*) := AList (fun _ : List (List χ) => Node β)

variable [DecidableEq χ]

namespace FileTree

def get (tree : FileTree χ β) (path : List (List χ)) : Option (Node β) := tree.lookup path

/-- Resolution of the directories that lead to a path: the first one that is missing or
is no directory decides the error, or the first name that is too long. -/
def walk (tree : FileTree χ β) : List (List χ) → List (List χ) → Except Errno Unit
  | _, [] => .ok ()
  | parent, name :: rest =>
    match tree.get parent with
    | some .dir => if name.length ≤ nameMax then walk tree (parent ++ [name]) rest else .error .enametoolong
    | some (.file _) => .error .enotdir
    | none => .error .enoent

/-- The node at a path, `none` when only its last name is missing. -/
def find (tree : FileTree χ β) (path : List (List χ)) : Except Errno (Option (Node β)) :=
  match walk tree [] path with
  | .error error => .error error
  | .ok () => .ok (tree.get path)

def mkdir (tree : FileTree χ β) (path : List (List χ)) : Except Errno (FileTree χ β) :=
  match tree.find path with
  | .error error => .error error
  | .ok (some _) => .error .eexist
  | .ok none => .ok (tree.insert path .dir)

/-- `open` with `O_WRONLY | O_CREAT`. -/
def openCreate (tree : FileTree χ β) (path : List (List χ)) : Except Errno (FileTree χ β) :=
  match tree.find path with
  | .error error => .error error
  | .ok (some .dir) => .error .eisdir
  | .ok (some (.file _)) => .ok tree
  | .ok none => .ok (tree.insert path (.file []))

/-- The contents behind a descriptor opened with `O_RDONLY`. A directory can be
opened so; reading from it is the error. -/
def openRead (tree : FileTree χ β) (path : List (List χ)) : Except Errno (List β) :=
  match tree.find path with
  | .error error => .error error
  | .ok (some (.file content)) => .ok content
  | .ok (some .dir) => .error .eisdir
  | .ok none => .error .enoent

/-- The names `readdir` yields, in the order of the tree's own entries. -/
def readdir (tree : FileTree χ β) (path : List (List χ)) : Except Errno (List (List χ)) :=
  match tree.find path with
  | .error error => .error error
  | .ok (some .dir) => .ok (tree.keys.filterMap fun entry =>
      if entry.dropLast = path then entry.getLast? else none)
  | .ok (some (.file _)) => .error .enotdir
  | .ok none => .error .enoent

def unlink (tree : FileTree χ β) (path : List (List χ)) : Except Errno (FileTree χ β) :=
  match tree.find path with
  | .error error => .error error
  | .ok (some (.file _)) => .ok (tree.erase path)
  | .ok (some .dir) => .error .eisdir
  | .ok none => .error .enoent

/-- `remove_all`: the node and everything below it, nothing when it is missing. -/
def removeAll (tree : FileTree χ β) (path : List (List χ)) : FileTree χ β :=
  (tree.keys.filter fun entry => path.isPrefixOf entry).foldl (fun rest entry => rest.erase entry) tree

theorem get_insert (tree : FileTree χ β) (path other : List (List χ)) (node : Node β) :
    get (tree.insert path node) other = if other = path then some node else tree.get other := by
  split
  next same => rw [same]; exact AList.lookup_insert tree
  next different => exact AList.lookup_insert_ne different

theorem get_erase (tree : FileTree χ β) (path other : List (List χ)) :
    get (tree.erase path) other = if other = path then none else tree.get other := by
  split
  next same => rw [same]; exact AList.lookup_erase path tree
  next different => exact AList.lookup_erase_ne different

theorem mem_iff_get {tree : FileTree χ β} {path : List (List χ)} : path ∈ tree ↔ (tree.get path).isSome :=
  AList.lookup_isSome.symm

private theorem get_foldl_erase (tree : FileTree χ β) (paths : List (List (List χ))) (other : List (List χ)) :
    get (paths.foldl (fun rest entry => rest.erase entry) tree) other =
      if other ∈ paths then none else tree.get other := by
  induction paths generalizing tree with
  | nil => simp
  | cons path paths ih =>
    rw [List.foldl_cons, ih, get_erase]
    by_cases same : other = path <;> by_cases later : other ∈ paths <;> simp [same, later]

theorem get_removeAll (tree : FileTree χ β) (path other : List (List χ)) :
    (tree.removeAll path).get other = if path <+: other then none else tree.get other := by
  rw [removeAll, get_foldl_erase]
  by_cases below : path <+: other
  · rw [if_pos below]
    by_cases present : other ∈ tree.keys
    · rw [if_pos (List.mem_filter.mpr ⟨present, List.isPrefixOf_iff_prefix.mpr below⟩)]
    · rw [if_neg (fun member => present (List.mem_filter.mp member).1)]
      exact AList.lookup_eq_none.mpr present
  · rw [if_neg below, if_neg]
    intro member
    exact below (List.isPrefixOf_iff_prefix.mp (List.mem_filter.mp member).2)

/-- Opening for writing leaves a file at the path and nothing else changed. -/
theorem openCreate_spec {tree : FileTree χ β} {path : List (List χ)} {node : Option (Node β)} (found : tree.find path = .ok node)
    (read : tree.get path = node) (notDir : node ≠ some .dir) :
    ∃ opened content, tree.openCreate path = .ok opened ∧ (∀ old, node = some (.file old) → content = old) ∧
      (node = none → content = []) ∧
      ∀ other, opened.get other = if other = path then some (.file content) else tree.get other := by
  cases node with
  | none => exact ⟨_, [], by simp only [openCreate, found], by simp, by simp, fun other => get_insert _ _ _ _⟩
  | some node =>
    cases node with
    | dir => exact absurd rfl notDir
    | file content =>
      refine ⟨tree, content, by simp only [openCreate, found], by simp, by simp, fun other => ?_⟩
      split
      next same => rw [same, read]
      next => rfl

private theorem walk_ok (tree : FileTree χ β) (parent path : List (List χ))
    (dirs : ∀ depth, depth < path.length → tree.get (parent ++ path.take depth) = some .dir)
    (short : ∀ name ∈ path, name.length ≤ nameMax) : tree.walk parent path = .ok () := by
  induction path generalizing parent with
  | nil => rfl
  | cons name rest ih =>
    have here : tree.get parent = some .dir := by simpa using dirs 0 (by simp)
    obtain ⟨first, others⟩ := List.forall_mem_cons.mp short
    simp only [walk, here, if_pos first]
    apply ih
    · intro depth inside
      simpa using dirs (depth + 1) (by simpa using inside)
    · exact others

/-- Below existing directories, finding a path is looking it up. -/
theorem find_of_dirs {tree : FileTree χ β} {path : List (List χ)}
    (dirs : ∀ depth, depth < path.length → tree.get (path.take depth) = some .dir)
    (short : ∀ name ∈ path, name.length ≤ nameMax) : tree.find path = .ok (tree.get path) := by
  rw [find, walk_ok tree [] path (by simpa using dirs) short]

/-- A name in the top directory that is too long. -/
theorem find_of_long {tree : FileTree χ β} (root : tree.get [] = some .dir) {name : List χ} (long : nameMax < name.length)
    (rest : List (List χ)) : tree.find (name :: rest) = .error .enametoolong := by
  simp only [find, walk, root, if_neg (Nat.not_le.mpr long)]

private theorem readdir_eq {tree : FileTree χ β} {path names : List (List χ)} (listed : tree.readdir path = .ok names) :
    names = tree.keys.filterMap fun entry => if entry.dropLast = path then entry.getLast? else none := by
  rw [readdir] at listed
  split at listed <;> first | (cases listed; rfl) | cases listed

theorem mem_readdir {tree : FileTree χ β} {path names : List (List χ)} (listed : tree.readdir path = .ok names)
    (name : List χ) : name ∈ names ↔ path ++ [name] ∈ tree := by
  rw [readdir_eq listed, List.mem_filterMap, AList.mem_keys]
  constructor
  · rintro ⟨entry, member, read⟩
    split at read
    next under =>
      obtain ⟨parent, rfl⟩ := List.getLast?_eq_some_iff.mp read
      rw [List.dropLast_concat] at under
      rwa [← under]
    next => cases read
  · intro member
    exact ⟨path ++ [name], member, by simp⟩

/-- A directory lists no name twice. -/
theorem readdir_nodup {tree : FileTree χ β} {path names : List (List χ)} (listed : tree.readdir path = .ok names) :
    names.Nodup := by
  rw [readdir_eq listed]
  apply tree.keys_nodup.filterMap
  intro first second name read₁ read₂
  simp only [Option.mem_def, Option.ite_none_right_eq_some] at read₁ read₂
  obtain ⟨parent₁, rfl⟩ := List.getLast?_eq_some_iff.mp read₁.2
  obtain ⟨parent₂, rfl⟩ := List.getLast?_eq_some_iff.mp read₂.2
  simpa using read₁.1.trans read₂.1.symm

variable [Zero β]

/-- A complete `pwrite` through an open descriptor. -/
def pwrite (tree : FileTree χ β) (path : List (List χ)) (data : List β) (offset : Nat) : FileTree χ β :=
  match tree.get path with
  | some (.file content) => tree.insert path (.file (ByteFile.pwrite content data offset))
  | _ => tree

theorem get_pwrite {tree : FileTree χ β} {path : List (List χ)} {content : List β} (read : tree.get path = some (.file content))
    (data : List β) (offset : Nat) (other : List (List χ)) :
    (tree.pwrite path data offset).get other =
      if other = path then some (.file (ByteFile.pwrite content data offset)) else tree.get other := by
  rw [pwrite, read]
  exact get_insert _ _ _ _

def truncate (tree : FileTree χ β) (path : List (List χ)) (length : Nat) : Except Errno (FileTree χ β) :=
  match tree.find path with
  | .error error => .error error
  | .ok (some (.file content)) => .ok (tree.insert path (.file (ByteFile.truncate content length)))
  | .ok (some .dir) => .error .eisdir
  | .ok none => .error .enoent

end FileTree
end LocalFs
