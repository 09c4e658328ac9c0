import Mathlib.Data.BitVec
import GekkoFwd.Lib.LocalFs

/-! Types that all parts of the client and the daemon share. -/

namespace GekkoFwd

/-- `std::string`. -/
abbrev Str := List Char

abbrev Byte := BitVec 8

/-- The 64-bit integer types: `size_t` and `off64_t` differ only in how a word is
compared, shifted and printed. -/
abbrev Word := BitVec 64

/-- `gkfs::config::rpc::chunksize`, in bytes. -/
def chunksize : Nat := 524288

/-! Values of `errno` that the client functions set. -/

namespace Errno

def enoent : Int := 2
def eio : Int := 5
def ebadf : Int := 9
def ebusy : Int := 16
def eexist : Int := 17
def enotdir : Int := 20
def eisdir : Int := 21
def einval : Int := 22
def enotempty : Int := 39
def enotsup : Int := 95
def enobufs : Int := 105

/-- The client's `EUNKNOWN`, which some functions return and none should put into `errno`. -/
def eunknown : Int := -1

/-- What the kernel's convention takes for an error number. -/
def Valid (errno : Int) : Prop := 1 ≤ errno ∧ errno ≤ 4095

instance (errno : Int) : Decidable (Valid errno) := inferInstanceAs (Decidable (_ ∧ _))

end Errno

/-- What can leave a function instead of a result. A failed `assert` ends the process,
so that no handler catches it. -/
inductive Exn where
  | systemError (errno : LocalFs.Errno)
  | filesystemError (errno : LocalFs.Errno)
  | invalidArgument
  | outOfRange
  | runtimeError
  | notFound
  | assertion
  deriving DecidableEq

/-- `assert`, which a build with `NDEBUG` leaves out. -/
def assertThat (ndebug condition : Bool) : Except Exn Unit :=
  if ndebug || condition then .ok () else .error .assertion

@[simp] theorem assertThat_true (ndebug : Bool) : assertThat ndebug true = .ok () := by
  simp [assertThat]

@[simp] theorem assertThat_ndebug (condition : Bool) : assertThat true condition = .ok () := rfl

theorem bind_eq_ok {α β : Type} {first : Except Exn α} {next : α → Except Exn β} {result : β}
    (done : (first >>= next) = .ok result) : ∃ value, first = .ok value ∧ next value = .ok result := by
  cases first with
  | error error => cases done
  | ok value => exact ⟨value, rfl, done⟩

end GekkoFwd
