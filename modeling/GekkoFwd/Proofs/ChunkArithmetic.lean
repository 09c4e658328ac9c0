import Mathlib.Data.Nat.Log
import GekkoFwd.Lib.Words
import GekkoFwd.ChunkCalc

/-! Masks, shifts and the table of `log2` against division, for every chunk size that is a
power of two. -/

namespace GekkoFwd.Proofs.ChunkArithmetic
open ChunkCalc Words

private theorem filled_spread {n : Word} {top : Nat} (filled : Filled top 1 n) :
    Filled top 64 ([1, 2, 4, 8, 16, 32].foldl (fun n shift => n ||| n >>> shift) n) := by
  have doubled := ((filled.spread (Nat.le_refl 1)).spread (Nat.le_refl 2)).spread (Nat.le_refl 4)
  exact ((doubled.spread (Nat.le_refl 8)).spread (Nat.le_refl 16)).spread (Nat.le_refl 32)

/-- The table is asked only for the highest set bit. -/
theorem log2_eq_of_filled {n m : Word} {top : Nat} (left : Filled top 1 n) (right : Filled top 1 m) (small : top < 64) :
    log2 n = log2 m := by
  have same := (filled_spread left).unique (filled_spread right) small
  exact congrArg (fun spread : Word => table.getD ((spread * 0x03f6eaf2cd271461#64) >>> 58).toNat 0) same

theorem filled_twoPow {k : Nat} (small : k < 64) : Filled k 1 (BitVec.twoPow 64 k) := by
  refine ⟨fun i higher => ?_, fun i below last => ?_⟩
  · rw [BitVec.getLsbD_twoPow]
    simp [Nat.ne_of_lt higher]
  · obtain rfl : i = k := by omega
    rw [BitVec.getLsbD_twoPow]
    simpa using small

theorem log2_eq {n : Word} (positive : 1 ≤ n.toNat) : log2 n = Nat.log 2 n.toNat := by
  have nonzero : n.toNat ≠ 0 := by omega
  have small : n.toNat.log2 < 64 := (Nat.log2_lt nonzero).mpr n.isLt
  rw [log2_eq_of_filled (filled_log2 nonzero) (filled_twoPow small) small, log2_twoPow small, Nat.log2_eq_log_two]

section align
variable {k : Nat} (small : k < 64)
include small

theorem chnkLalign_twoPow (offset : Word) : chnkLalign offset (BitVec.twoPow 64 k) = (offset >>> k) <<< k := by
  apply BitVec.eq_of_getLsbD_eq
  intro i inside
  rw [getLsbD_chnkLalign offset small inside, BitVec.getLsbD_shiftLeft, BitVec.getLsbD_ushiftRight]
  by_cases low : i < k
  · simp [low, inside]
  · simp [low, inside, Nat.le_of_not_lt low]

theorem toNat_chnkLalign (offset : Word) :
    (chnkLalign offset (BitVec.twoPow 64 k)).toNat = 2 ^ k * (offset.toNat / 2 ^ k) := by
  have bound := offset.isLt
  have below := Nat.div_mul_le_self offset.toNat (2 ^ k)
  rw [chnkLalign_twoPow small, BitVec.toNat_shiftLeft, BitVec.toNat_ushiftRight, Nat.shiftRight_eq_div_pow, Nat.shiftLeft_eq,
    Nat.mod_eq_of_lt (by omega), Nat.mul_comm]

theorem toNat_chnkRpad_twoPow (offset : Word) :
    (chnkRpad offset (BitVec.twoPow 64 k)).toNat = (2 ^ k - offset.toNat % 2 ^ k) % 2 ^ k := by
  obtain ⟨many, whole⟩ : 2 ^ k ∣ 2 ^ 64 := Nat.pow_dvd_pow 2 (Nat.le_of_lt small)
  have before : offset.toNat / 2 ^ k < many := Nat.div_lt_of_lt_mul (whole ▸ offset.isLt)
  obtain ⟨behind, rfl⟩ := Nat.exists_eq_add_of_lt before
  have split := Nat.div_add_mod offset.toNat (2 ^ k)
  have rest := Nat.mod_lt offset.toNat (Nat.two_pow_pos k)
  have left : 2 ^ 64 - offset.toNat = 2 ^ k * behind + (2 ^ k - offset.toNat % 2 ^ k) := by
    rw [whole, Nat.mul_add, Nat.mul_add, Nat.mul_one]
    omega
  rw [chnkRpad, BitVec.toNat_umod, BitVec.toNat_neg, BitVec.toNat_twoPow_of_lt small, Nat.mod_mod_of_dvd _ ⟨_, whole⟩, left,
    Nat.mul_add_mod]

theorem toNat_chnkCountForOffset {offset count : Word} (some : 1 ≤ count.toNat)
    (fits : offset.toNat + count.toNat ≤ 2 ^ 63) :
    (chnkCountForOffset offset count (BitVec.twoPow 64 k)).toNat =
      (offset.toNat + count.toNat - 1) / 2 ^ k - offset.toNat / 2 ^ k + 1 := by
  have one : (1 : Word).toNat = 1 := rfl
  have last : (offset + count - 1).toNat = offset.toNat + count.toNat - 1 := by
    rw [BitVec.toNat_sub, BitVec.toNat_add, one]
    omega
  have first := @toNat_chnkIdForOffset_twoPow offset k small (by omega)
  have final := @toNat_chnkIdForOffset_twoPow (offset + count - 1) k small (by omega)
  have count_eq : chnkCountForOffset offset count (BitVec.twoPow 64 k) =
      chnkIdForOffset (offset + count - 1) (BitVec.twoPow 64 k) - chnkIdForOffset offset (BitVec.twoPow 64 k) + 1 := rfl
  have ordered : offset.toNat / 2 ^ k ≤ (offset.toNat + count.toNat - 1) / 2 ^ k := Nat.div_le_div_right (by omega)
  have bound := Nat.div_le_self (offset.toNat + count.toNat - 1) (2 ^ k)
  rw [last] at final
  rw [count_eq, BitVec.toNat_add, BitVec.toNat_sub, first, final, one]
  omega

end align

/-- Every chunk calculation is a division or its rest, and `log2` is the logarithm. -/
theorem chunk_calc_eq_division {chnkSize offset : Word} (power : ∃ k ≤ 62, chnkSize.toNat = 2 ^ k)
    (signed : offset.toNat < 2 ^ 63) :
    (chnkIdForOffset offset chnkSize).toNat = offset.toNat / chnkSize.toNat ∧
      (chnkLpad offset chnkSize).toNat = offset.toNat % chnkSize.toNat ∧
      (chnkRpad offset chnkSize).toNat = (chnkSize.toNat - offset.toNat % chnkSize.toNat) % chnkSize.toNat ∧
      (chnkLalign offset chnkSize).toNat = chnkSize.toNat * (offset.toNat / chnkSize.toNat) ∧
      (∀ count : Word, 1 ≤ count.toNat → offset.toNat + count.toNat ≤ 2 ^ 63 →
        (chnkCountForOffset offset count chnkSize).toNat =
          (offset.toNat + count.toNat - 1) / chnkSize.toNat - offset.toNat / chnkSize.toNat + 1) ∧
      ∀ n : Word, 1 ≤ n.toNat → log2 n = Nat.log 2 n.toNat := by
  obtain ⟨k, bound, value⟩ := power
  have small : k < 64 := by omega
  obtain rfl : chnkSize = BitVec.twoPow 64 k :=
    BitVec.eq_of_toNat_eq (value.trans (BitVec.toNat_twoPow_of_lt small).symm)
  rw [value]
  refine ⟨toNat_chnkIdForOffset_twoPow small signed, ?_, toNat_chnkRpad_twoPow small offset, toNat_chnkLalign small offset,
    fun count some fits => toNat_chnkCountForOffset small some fits, fun n positive => log2_eq positive⟩
  rw [chnkLpad, BitVec.toNat_umod, value]

/-- At the last offset, with the largest chunk. -/
theorem chunk_calc_eq_division_last_offset :
    (chnkRpad 0x7fffffffffffffff#64 0x4000000000000000#64).toNat = 1 ∧
      (chnkCountForOffset 0x7fffffffffffffff#64 1#64 0x4000000000000000#64).toNat = 1 := by
  have size : (0x4000000000000000#64).toNat = 2 ^ 62 := by decide
  have division := @chunk_calc_eq_division 0x4000000000000000#64 0x7fffffffffffffff#64 ⟨62, Nat.le_refl 62, size⟩ (by decide)
  obtain ⟨_, _, rpad, _, count, _⟩ := division
  exact ⟨rpad.trans (by decide), (count 1#64 (by decide) (by decide)).trans (by decide)⟩

end GekkoFwd.Proofs.ChunkArithmetic
