import Mathlib.Data.List.Basic
import Mathlib.Data.List.TakeWhile
import GekkoFwd.Basic

/-! Path text (`global/path_util.cpp`) and the form of the paths that the client's
resolver hands to the file system functions. -/

namespace GekkoFwd.Path

/-- `max_length`. -/
def maxLength : Nat := 4096

def isRelative (path : Str) : Bool :=
  match path with
  | [] => false
  | c :: _ => c != '/'

def isAbsolute (path : Str) : Bool :=
  match path with
  | [] => false
  | c :: _ => c == '/'

def hasTrailingSlash (path : Str) : Bool := path.getLast? == some '/'

/-- The text before the last separator, and `/` when that is nothing. -/
def dirname (path : Str) : Str :=
  if '/' ∈ path then
    let parent := ((path.reverse.dropWhile (· != '/')).drop 1).reverse
    if parent = [] then ['/'] else parent
  else path

/-- A component that a resolved path may have. -/
structure IsName (name : Str) : Prop where
  nonempty : name ≠ []
  plain : '/' ∉ name
  notDot : name ≠ ['.']
  notDotDot : name ≠ ['.', '.']

instance (name : Str) : Decidable (IsName name) :=
  decidable_of_iff (name ≠ [] ∧ '/' ∉ name ∧ name ≠ ['.'] ∧ name ≠ ['.', '.'])
    ⟨fun ⟨nonempty, plain, notDot, notDotDot⟩ => ⟨nonempty, plain, notDot, notDotDot⟩,
      fun valid => ⟨valid.nonempty, valid.plain, valid.notDot, valid.notDotDot⟩⟩

/-- The absolute path with the given components. -/
def join : List Str → Str
  | [] => ['/']
  | name :: names => (name :: names).flatMap fun part => '/' :: part

/-- Absolute, without empty, `.` or `..` components and without a trailing slash. -/
def Canonical (path : Str) : Prop := ∃ names, (∀ name ∈ names, IsName name) ∧ path = join names

theorem canonical_root : Canonical ['/'] := ⟨[], by simp, rfl⟩

theorem isAbsolute_join (names : List Str) : isAbsolute (join names) = true := by
  cases names <;> simp [join, isAbsolute]

theorem join_concat (names : List Str) (name : Str) :
    join (names ++ [name]) = (if names = [] then [] else join names) ++ '/' :: name := by
  cases names <;> simp [join]

theorem join_eq_root {names : List Str} (valid : ∀ name ∈ names, IsName name) : join names = ['/'] ↔ names = [] := by
  cases names with
  | nil => simp [join]
  | cons name names => simp [join, (valid name List.mem_cons_self).nonempty]

/-- The parent of a path is the path of its leading components. -/
theorem dirname_join_concat (names : List Str) {name : Str} (valid : IsName name) :
    dirname (join (names ++ [name])) = join names := by
  have slash : '/' ∈ join (names ++ [name]) := by
    rw [join_concat]
    simp
  have stops : ((join (names ++ [name])).reverse.dropWhile (· != '/')).drop 1 =
      (if names = [] then [] else join names).reverse := by
    rw [join_concat, List.reverse_append, List.reverse_cons, List.append_assoc, List.dropWhile_append_of_pos]
    · simp
    · intro c member
      have other : c ≠ '/' := fun same => valid.plain (same ▸ List.mem_reverse.mp member)
      simpa using other
  rw [dirname, if_pos slash, stops, List.reverse_reverse]
  cases names with
  | nil => rfl
  | cons first rest => simp [join]

theorem dirname_top {name : Str} (plain : '/' ∉ name) : dirname ('/' :: name) = ['/'] := by
  have stops : ('/' :: name).reverse.dropWhile (· != '/') = ['/'] := by
    rw [List.reverse_cons, List.dropWhile_append_of_pos]
    · simp
    · intro c member
      have other : c ≠ '/' := fun same => plain (same ▸ List.mem_reverse.mp member)
      simpa using other
  rw [dirname, if_pos List.mem_cons_self, stops]
  rfl

theorem Canonical.cases {path : Str} (canonical : Canonical path) :
    path = ['/'] ∨ ∃ names name, (∀ part ∈ names, IsName part) ∧ IsName name ∧ path = join (names ++ [name]) := by
  obtain ⟨names, valid, rfl⟩ := canonical
  rcases List.eq_nil_or_concat names with rfl | ⟨init, name, rfl⟩
  · exact .inl rfl
  · rw [List.concat_eq_append] at valid ⊢
    exact .inr ⟨init, name, fun part member => valid part (by simp [member]), valid name (by simp), rfl⟩

theorem Canonical.isAbsolute {path : Str} (canonical : Canonical path) : isAbsolute path = true := by
  obtain ⟨names, _, rfl⟩ := canonical
  exact isAbsolute_join names

theorem Canonical.hasTrailingSlash {path : Str} (canonical : Canonical path) : path = ['/'] ∨ hasTrailingSlash path = false := by
  rcases canonical.cases with root | ⟨names, name, _, last, rfl⟩
  · exact .inl root
  · right
    rw [Path.hasTrailingSlash, join_concat, List.getLast?_append_cons, List.getLast?_cons]
    cases ended : name.getLast? with
    | none => exact absurd (List.getLast?_eq_none_iff.mp ended) last.nonempty
    | some c =>
      have plain : c ≠ '/' := fun same => last.plain (same ▸ List.mem_of_getLast? ended)
      simpa using plain

end GekkoFwd.Path
