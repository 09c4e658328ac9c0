import Mathlib.Data.BitVec

/-! Comparisons of machine words that are known as numbers, and words whose set bits are a
run below the highest one. -/

namespace Words

variable {w a b : Nat}

theorem ofNat_le (left : a < 2 ^ w) (right : b < 2 ^ w) : BitVec.ofNat w a ≤ BitVec.ofNat w b ↔ a ≤ b := by
  rw [BitVec.le_def, BitVec.toNat_ofNat, BitVec.toNat_ofNat, Nat.mod_eq_of_lt left, Nat.mod_eq_of_lt right]

theorem ofNat_lt (left : a < 2 ^ w) (right : b < 2 ^ w) : BitVec.ofNat w a < BitVec.ofNat w b ↔ a < b := by
  rw [BitVec.lt_def, BitVec.toNat_ofNat, BitVec.toNat_ofNat, Nat.mod_eq_of_lt left, Nat.mod_eq_of_lt right]

theorem ofNat_inj (left : a < 2 ^ w) (right : b < 2 ^ w) : BitVec.ofNat w a = BitVec.ofNat w b ↔ a = b := by
  rw [← BitVec.toNat_inj, BitVec.toNat_ofNat, BitVec.toNat_ofNat, Nat.mod_eq_of_lt left, Nat.mod_eq_of_lt right]

theorem toNat_ofNat (small : a < 2 ^ w) : (BitVec.ofNat w a).toNat = a := by
  rw [BitVec.toNat_ofNat, Nat.mod_eq_of_lt small]

theorem toNat_larger (x y : BitVec w) : (if y < x then x else y).toNat = max x.toNat y.toNat := by
  split
  next less => exact (Nat.max_eq_left (Nat.le_of_lt (BitVec.lt_def.mp less))).symm
  next more => exact (Nat.max_eq_right (Nat.le_of_not_lt fun less => more (BitVec.lt_def.mpr less))).symm

/-- A signed comparison with zero, for a word without its sign bit. -/
theorem zero_slt_ofNat (small : a < 2 ^ w) : BitVec.slt 0 (BitVec.ofNat (w + 1) a) = decide (0 < a) := by
  have double : 2 ^ (w + 1) = 2 * 2 ^ w := by omega
  have toNat : (BitVec.ofNat (w + 1) a).toNat = a := toNat_ofNat (by omega)
  have toInt : (BitVec.ofNat (w + 1) a).toInt = a := by
    rw [BitVec.toInt_eq_toNat_of_lt (by omega), toNat]
  rw [BitVec.slt_eq_decide, toInt]
  simp

/-- A signed word is its number, or that less the range of words. -/
theorem toInt_cases (x : BitVec (w + 1)) :
    x.toNat < 2 ^ w ∧ x.toInt = x.toNat ∨ 2 ^ w ≤ x.toNat ∧ x.toNat < 2 * 2 ^ w ∧ x.toInt = x.toNat - 2 * 2 ^ w := by
  have double : 2 ^ (w + 1) = 2 * 2 ^ w := Nat.pow_succ'
  have bound : x.toNat < 2 * 2 ^ w := double ▸ x.isLt
  rw [BitVec.toInt_eq_toNat_cond]
  split
  next less => exact .inl ⟨by omega, rfl⟩
  next more =>
    refine .inr ⟨by omega, bound, ?_⟩
    rw [double]
    push_cast
    rfl

/-- The highest set bit is at `top`, and so many bits from it downwards are set. -/
structure Filled (top width : Nat) (x : BitVec w) : Prop where
  above : ∀ i, top < i → x.getLsbD i = false
  run : ∀ i ≤ top, top < i + width → x.getLsbD i = true

theorem filled_log2 {x : BitVec w} (nonzero : x.toNat ≠ 0) : Filled x.toNat.log2 1 x := by
  refine ⟨fun i higher => ?_, fun i below last => ?_⟩
  · rw [← BitVec.testBit_toNat]
    exact Nat.testBit_lt_two_pow ((Nat.log2_lt nonzero).mp higher)
  · obtain rfl : i = x.toNat.log2 := by omega
    rw [← BitVec.testBit_toNat]
    exact Nat.testBit_log2 nonzero

/-- A shift by no more than the run makes the run longer by the shift. -/
theorem Filled.spread {top width shift : Nat} {x : BitVec w} (filled : Filled top width x) (short : shift ≤ width) :
    Filled top (width + shift) (x ||| x >>> shift) := by
  refine ⟨fun i higher => ?_, fun i below inside => ?_⟩
  · rw [BitVec.getLsbD_or, BitVec.getLsbD_ushiftRight, filled.above i higher, filled.above (shift + i) (by omega)]
    rfl
  · rw [BitVec.getLsbD_or, BitVec.getLsbD_ushiftRight, Bool.or_eq_true]
    by_cases reached : top < i + width
    · exact .inl (filled.run i below reached)
    · exact .inr (filled.run (shift + i) (by omega) (by omega))

/-- Once the run reaches the lowest bit, the highest one decides the word. -/
theorem Filled.unique {top width : Nat} {x y : BitVec w} (left : Filled top width x) (right : Filled top width y)
    (all : top < width) : x = y := by
  apply BitVec.eq_of_getLsbD_eq
  intro i _
  by_cases below : i ≤ top
  · rw [left.run i below (by omega), right.run i below (by omega)]
  · rw [left.above i (by omega), right.above i (by omega)]

end Words
