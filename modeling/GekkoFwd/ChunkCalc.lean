import Mathlib.Tactic.IntervalCases
import GekkoFwd.Basic

/-! Chunk arithmetic on file offsets (`global/chunk_calc_util.hpp`), on 64-bit words. -/

namespace GekkoFwd.ChunkCalc

/-- The de Bruijn table of `log2`. -/
def table : List Nat :=
  [0, 58, 1, 59, 47, 53, 2, 60, 39, 48, 27, 54, 33, 42, 3, 61,
   51, 37, 40, 49, 18, 28, 20, 55, 30, 34, 11, 43, 14, 22, 4, 62,
   57, 46, 52, 38, 26, 32, 41, 50, 36, 17, 19, 29, 10, 13, 21, 56,
   45, 25, 31, 35, 16, 9, 12, 44, 24, 15, 8, 23, 7, 6, 5, 63]

def log2 (n : Word) : Nat :=
  let n := n ||| n >>> 1
  let n := n ||| n >>> 2
  let n := n ||| n >>> 4
  let n := n ||| n >>> 8
  let n := n ||| n >>> 16
  let n := n ||| n >>> 32
  table.getD ((n * 0x03f6eaf2cd271461#64) >>> 58).toNat 0

def chnkLalign (offset chnkSize : Word) : Word := offset &&& ~~~(chnkSize - 1)

def chnkLpad (offset chnkSize : Word) : Word := offset % chnkSize

def chnkRpad (offset chnkSize : Word) : Word := -offset % chnkSize

/-- The shift is on `off64_t`, so it copies the sign bit. -/
def chnkIdForOffset (offset chnkSize : Word) : Word :=
  (chnkLalign offset chnkSize).sshiftRight (log2 chnkSize)

def chnkCountForOffset (offset count chnkSize : Word) : Word :=
  let chnkStart := chnkLalign offset chnkSize
  let chnkEnd := chnkLalign (offset + count - 1) chnkSize
  chnkEnd.sshiftRight (log2 chnkSize) - chnkStart.sshiftRight (log2 chnkSize) + 1

theorem log2_twoPow {k : Nat} (small : k < 64) : log2 (BitVec.twoPow 64 k) = k := by
  interval_cases k <;> decide

private theorem getLsbD_mask {k : Nat} (small : k < 64) (i : Nat) :
    (BitVec.twoPow 64 k - 1).getLsbD i = decide (i < k) := by
  have power : 2 ^ k < 2 ^ 64 := Nat.pow_lt_pow_right (by decide) small
  have positive : 0 < 2 ^ k := Nat.two_pow_pos k
  have value : (BitVec.twoPow 64 k - 1).toNat = 2 ^ k - 1 := by
    rw [BitVec.toNat_sub, BitVec.toNat_twoPow, Nat.mod_eq_of_lt power]
    simp only [BitVec.reduceToNat]
    omega
  rw [← BitVec.testBit_toNat, value, Nat.testBit_two_pow_sub_one]

theorem getLsbD_chnkLalign (offset : Word) {k i : Nat} (small : k < 64) (inside : i < 64) :
    (chnkLalign offset (BitVec.twoPow 64 k)).getLsbD i = (offset.getLsbD i && decide (k ≤ i)) := by
  have split : (!decide (i < k)) = decide (k ≤ i) := by
    by_cases low : i < k <;> simp [low, Nat.not_le.mpr, Nat.le_of_not_lt]
  simp only [chnkLalign, BitVec.getLsbD_and, BitVec.getLsbD_not, getLsbD_mask small, split, inside,
    decide_true, Bool.true_and]

/-- Aligning first does not change a shift by the chunk size's logarithm. -/
theorem chnkIdForOffset_twoPow (offset : Word) {k : Nat} (small : k < 64) :
    chnkIdForOffset offset (BitVec.twoPow 64 k) = offset.sshiftRight k := by
  rw [chnkIdForOffset, log2_twoPow small]
  apply BitVec.eq_of_getLsbD_eq
  intro i inside
  simp only [BitVec.getLsbD_sshiftRight, BitVec.msb_eq_getLsbD_last]
  by_cases low : k + i < 64
  · rw [if_pos low, if_pos low, getLsbD_chnkLalign offset small low]
    simp only [Nat.le_add_right, decide_true, Bool.and_true]
  · rw [if_neg low, if_neg low, getLsbD_chnkLalign offset small (by decide : 64 - 1 < 64)]
    simp only [Nat.le_of_lt_succ small, decide_true, Bool.and_true]

/-- Below 2^63 the chunk of an offset is its quotient by the chunk size. -/
theorem toNat_chnkIdForOffset_twoPow {offset : Word} {k : Nat} (small : k < 64) (signed : offset.toNat < 2 ^ 63) :
    (chnkIdForOffset offset (BitVec.twoPow 64 k)).toNat = offset.toNat / 2 ^ k := by
  have positive : offset.msb = false := by
    rw [BitVec.msb_eq_decide]
    simpa using signed
  rw [chnkIdForOffset_twoPow offset small, BitVec.sshiftRight_eq_of_msb_false positive, BitVec.toNat_ushiftRight,
    Nat.shiftRight_eq_div_pow]

private theorem chunksize_twoPow : (BitVec.ofNat 64 chunksize : Word) = BitVec.twoPow 64 19 := by decide

theorem toNat_chnkIdForOffset {offset : Word} (small : offset.toNat < 2 ^ 63) :
    (chnkIdForOffset offset (.ofNat 64 chunksize)).toNat = offset.toNat / chunksize := by
  rw [chunksize_twoPow]
  exact toNat_chnkIdForOffset_twoPow (by decide) small

/-- The chunk of a negative offset is negative. -/
theorem msb_chnkIdForOffset (offset : Word) : (chnkIdForOffset offset (.ofNat 64 chunksize)).msb = offset.msb := by
  rw [chunksize_twoPow, chnkIdForOffset_twoPow offset (by decide), BitVec.msb_sshiftRight]

/-- From 2^63 on the chunk of an offset is among the last 2^44 numbers. -/
theorem le_toNat_chnkIdForOffset {offset : Word} (large : 2 ^ 63 ≤ offset.toNat) :
    2 ^ 64 - 2 ^ 44 ≤ (chnkIdForOffset offset (.ofNat 64 chunksize)).toNat := by
  have bound := offset.isLt
  have negative : offset.msb = true := by
    rw [BitVec.msb_eq_decide]
    simpa using large
  rw [chunksize_twoPow, chnkIdForOffset_twoPow offset (by decide), BitVec.sshiftRight_eq_of_msb_true negative, BitVec.toNat_not,
    BitVec.toNat_ushiftRight, BitVec.toNat_not, Nat.shiftRight_eq_div_pow]
  omega

theorem toNat_chnkLpad (offset : Word) :
    (chnkLpad offset (.ofNat 64 chunksize)).toNat = offset.toNat % chunksize := by
  rw [chnkLpad, BitVec.toNat_umod]
  rfl

theorem toNat_chnkRpad (offset : Word) :
    (chnkRpad offset (.ofNat 64 chunksize)).toNat = (2 ^ 64 - offset.toNat) % chunksize := by
  have divides : chunksize ∣ 2 ^ 64 := by decide
  rw [chnkRpad, BitVec.toNat_umod, BitVec.toNat_neg]
  exact Nat.mod_mod_of_dvd _ divides

end GekkoFwd.ChunkCalc
