import Mathlib.Data.Finset.Image
import Mathlib.Data.List.AList

/-! A table of descriptors as POSIX describes it: numbers below a limit are bound to
open files, and a new descriptor gets the lowest number that is free. -/

structure FdTable (κ : Type) where
  bindings : AList fun _ : Int => κ
  limit : Nat
  bounded : ∀ fd ∈ bindings, 0 ≤ fd ∧ fd < limit

namespace FdTable
variable {κ : Type}

def ebadf : Int := 9

def einval : Int := 22

def emfile : Int := 24

def empty (limit : Nat) : FdTable κ := ⟨∅, limit, fun _ member => absurd member (AList.notMem_empty _)⟩

def get (table : FdTable κ) (fd : Int) : Option κ := table.bindings.lookup fd

/-- The lowest free number. -/
def lowest (table : FdTable κ) : Option Int :=
  ((List.range table.limit).find? fun fd : Nat => (table.get fd).isNone).map fun fd : Nat => (fd : Int)

/-- The lowest free number that is not below `least`. -/
def lowestFrom (table : FdTable κ) (least : Int) : Option Int :=
  ((List.range table.limit).find? fun fd : Nat => decide (least ≤ fd) && (table.get fd).isNone).map fun fd : Nat => (fd : Int)

/-- The free numbers of a range. -/
def unbound (table : FdTable κ) (least most : Int) : Finset Int :=
  ((Finset.range (most - least).toNat).image fun above : Nat => least + above).filter fun fd => table.get fd = none

def bind (table : FdTable κ) (fd : Int) (file : κ) (valid : 0 ≤ fd ∧ fd < table.limit) : FdTable κ where
  bindings := table.bindings.insert fd file
  limit := table.limit
  bounded other member := by
    rcases AList.mem_insert _ |>.mp member with rfl | before
    · exact valid
    · exact table.bounded other before

def unbind (table : FdTable κ) (fd : Int) : FdTable κ where
  bindings := table.bindings.erase fd
  limit := table.limit
  bounded other member := table.bounded other (AList.mem_erase.mp member).2

/-- A call that makes a new descriptor. -/
def install (table : FdTable κ) (file : κ) : Except Int Int × FdTable κ :=
  match table.lowest with
  | none => (.error emfile, table)
  | some fd => if valid : 0 ≤ fd ∧ fd < table.limit then (.ok fd, table.bind fd file valid) else (.error emfile, table)

def installFrom (table : FdTable κ) (least : Int) (file : κ) : Except Int Int × FdTable κ :=
  match table.lowestFrom least with
  | none => (.error emfile, table)
  | some fd => if valid : 0 ≤ fd ∧ fd < table.limit then (.ok fd, table.bind fd file valid) else (.error emfile, table)

def dup (table : FdTable κ) (oldfd : Int) : Except Int Int × FdTable κ :=
  match table.get oldfd with
  | none => (.error ebadf, table)
  | some file => table.install file

def dup2 (table : FdTable κ) (oldfd newfd : Int) : Except Int Int × FdTable κ :=
  match table.get oldfd with
  | none => (.error ebadf, table)
  | some file =>
    if oldfd = newfd then (.ok newfd, table)
    else if valid : 0 ≤ newfd ∧ newfd < table.limit then (.ok newfd, table.bind newfd file valid)
    else (.error ebadf, table)

def close (table : FdTable κ) (fd : Int) : Except Int Int × FdTable κ :=
  match table.get fd with
  | none => (.error ebadf, table)
  | some _ => (.ok 0, table.unbind fd)

variable {table : FdTable κ} {fd other : Int} {file : κ}

theorem get_bind {valid : 0 ≤ fd ∧ fd < table.limit} :
    (table.bind fd file valid).get other = if other = fd then some file else table.get other := by
  split
  next same =>
    subst same
    exact AList.lookup_insert table.bindings
  next different => exact AList.lookup_insert_ne different

theorem get_unbind : (table.unbind fd).get other = if other = fd then none else table.get other := by
  split
  next same =>
    subst same
    exact AList.lookup_erase other table.bindings
  next different => exact AList.lookup_erase_ne different

theorem range_of_get (bound : table.get fd = some file) : 0 ≤ fd ∧ fd < table.limit := by
  apply table.bounded
  rw [← AList.lookup_isSome]
  exact Option.isSome_of_eq_some bound

theorem lowest_spec (found : table.lowest = some fd) : (0 ≤ fd ∧ fd < table.limit) ∧ table.get fd = none := by
  obtain ⟨n, first, rfl⟩ := Option.map_eq_some_iff.mp found
  have free := List.find?_some first
  have member := List.mem_range.mp (List.mem_of_find?_eq_some first)
  exact ⟨⟨Int.natCast_nonneg n, by exact_mod_cast member⟩, Option.isNone_iff_eq_none.mp free⟩

theorem install_cases (table : FdTable κ) (file : κ) :
    (table.lowest = none ∧ table.install file = (.error emfile, table)) ∨
      ∃ fd after, table.lowest = some fd ∧ 0 ≤ fd ∧ table.get fd = none ∧ table.install file = (.ok fd, after) ∧
        ∀ other, after.get other = if other = fd then some file else table.get other := by
  cases found : table.lowest with
  | none => exact .inl ⟨rfl, by rw [install, found]⟩
  | some fd =>
    obtain ⟨valid, free⟩ := lowest_spec found
    refine .inr ⟨fd, table.bind fd file valid, rfl, valid.1, free, ?_, fun other => get_bind⟩
    rw [install, found]
    exact dif_pos valid

theorem install_ok {after : FdTable κ} (installed : table.install file = (.ok fd, after)) :
    table.get fd = none ∧ ∃ valid : 0 ≤ fd ∧ fd < table.limit, after = table.bind fd file valid := by
  rw [install] at installed
  split at installed
  next => cases installed
  next number found =>
    obtain ⟨valid, free⟩ := lowest_spec found
    rw [dif_pos valid] at installed
    cases installed
    exact ⟨free, valid, rfl⟩

theorem mem_unbound {least most : Int} : fd ∈ table.unbound least most ↔ (least ≤ fd ∧ fd < most) ∧ table.get fd = none := by
  simp only [unbound, Finset.mem_filter, Finset.mem_image, Finset.mem_range]
  refine and_congr_left fun _ => ⟨?_, fun range => ⟨(fd - least).toNat, by omega, by omega⟩⟩
  rintro ⟨above, small, rfl⟩
  omega

/-- The lowest free number is not above any other. -/
theorem lowestFrom_spec {least : Int} (inside : 0 ≤ other ∧ other < table.limit) (above : least ≤ other) (free : table.get other = none) :
    ∃ fd, table.lowestFrom least = some fd ∧ (0 ≤ fd ∧ fd < table.limit) ∧ (least ≤ fd ∧ fd ≤ other) ∧ table.get fd = none := by
  obtain ⟨n, rfl⟩ := Int.eq_ofNat_of_zero_le inside.1
  have member : n ∈ List.range table.limit := List.mem_range.mpr (by exact_mod_cast inside.2)
  have passes : (decide (least ≤ (n : Int)) && (table.get n).isNone) = true := by simp [above, free]
  let free (fd : Nat) : Bool := decide (least ≤ fd) && (table.get fd).isNone
  obtain ⟨first, found⟩ : ∃ first, (List.range table.limit).find? free = some first :=
    Option.isSome_iff_exists.mp (List.find?_isSome.mpr ⟨n, member, passes⟩)
  obtain ⟨holds, inRange, before⟩ := List.find?_range_eq_some.mp found
  simp only [free, Bool.and_eq_true, decide_eq_true_eq, Option.isNone_iff_eq_none] at holds
  refine ⟨first, congrArg (Option.map Nat.cast) found, ⟨Int.natCast_nonneg _, ?_⟩, ⟨holds.1, ?_⟩, holds.2⟩
  · exact_mod_cast List.mem_range.mp inRange
  · by_contra later
    have passed : (!free n) = true := before n (by omega)
    simp only [free, passes, Bool.not_true, Bool.false_eq_true] at passed

theorem installFrom_spec (least : Int) (file : κ) (inside : 0 ≤ other ∧ other < table.limit) (above : least ≤ other)
    (free : table.get other = none) :
    ∃ fd : Int, ∃ valid : 0 ≤ fd ∧ fd < table.limit, table.installFrom least file = (.ok fd, table.bind fd file valid) ∧
      (least ≤ fd ∧ fd ≤ other) ∧ table.get fd = none := by
  obtain ⟨fd, lowest, valid, bounds, unbound⟩ := lowestFrom_spec inside above free
  refine ⟨fd, valid, ?_, bounds, unbound⟩
  rw [installFrom, lowest]
  exact dif_pos valid

theorem unbound_bind {least most : Int} {valid : 0 ≤ fd ∧ fd < table.limit} :
    (table.bind fd file valid).unbound least most = (table.unbound least most).erase fd := by
  ext number
  rw [Finset.mem_erase, mem_unbound, mem_unbound, get_bind]
  by_cases same : number = fd
  · simp [same]
  · simp [same]

end FdTable
