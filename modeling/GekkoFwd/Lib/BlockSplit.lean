import Mathlib.Algebra.BigOperators.Group.List.Basic
import Mathlib.Algebra.GroupWithZero.Nat
import Mathlib.Algebra.Order.Group.Nat
import Mathlib.Data.List.Nodup

/-! A nonempty range of positions cut at the multiples of a block size. Every block
from `first` to `last` holds one piece of the range. -/

structure BlockSplit where
  block : Nat
  start : Nat
  length : Nat
  block_pos : 0 < block
  length_pos : 0 < length

namespace BlockSplit

variable (split : BlockSplit)

def first : Nat := split.start / split.block

def last : Nat := (split.start + split.length - 1) / split.block

/-- Where the piece of a block begins and ends. -/
def lo (c : Nat) : Nat := max (c * split.block) split.start

def hi (c : Nat) : Nat := min (c * split.block + split.block) (split.start + split.length)

def size (c : Nat) : Nat := split.hi c - split.lo c

/-- Where the piece lies in the range, and where it lies in its block. -/
def origin (c : Nat) : Nat := split.lo c - split.start

def pos (c : Nat) : Nat := split.lo c - c * split.block

/-- What the first block lacks on its left and the last block on its right. -/
def lpad : Nat := split.start % split.block

def rpad : Nat := (split.block - (split.start + split.length) % split.block) % split.block

/-- The piece of a block is what the range has in it. -/
theorem mem_piece (c x : Nat) :
    split.lo c ≤ x ∧ x < split.hi c ↔
      x / split.block = c ∧ split.start ≤ x ∧ x < split.start + split.length := by
  have positive := split.block_pos
  rw [Nat.div_eq_iff positive, lo, hi]
  omega

/-- The piece of a block, seen from the start of the range. -/
theorem mem_piece_origin (c i : Nat) :
    split.origin c ≤ i ∧ i < split.origin c + split.size c ↔ (split.start + i) / split.block = c ∧ i < split.length := by
  have piece := split.mem_piece c (split.start + i)
  have above : split.start ≤ split.lo c := Nat.le_max_right _ _
  simp only [origin, size]
  omega

theorem pos_add_of_mem_piece {c i : Nat} (member : (split.start + i) / split.block = c) :
    split.pos c + (i - split.origin c) = (split.start + i) % split.block := by
  have decomposed := Nat.div_add_mod' (split.start + i) split.block
  rw [member] at decomposed
  simp only [pos, origin, lo]
  omega

/-- The piece of a block, seen from the start of the block. -/
theorem mem_piece_pos (c : Nat) {index : Nat} (small : index < split.block) :
    split.pos c ≤ index ∧ index < split.pos c + split.size c ↔
      split.start ≤ c * split.block + index ∧ c * split.block + index < split.start + split.length := by
  have positive := split.block_pos
  simp only [pos, size, lo, hi]
  omega

/-- A place in a piece has the same distance to both starts. -/
theorem start_add_origin (c : Nat) : split.start + split.origin c = c * split.block + split.pos c := by
  simp only [origin, pos, lo]
  omega

theorem first_le_last : split.first ≤ split.last := by
  have positive := split.length_pos
  exact Nat.div_le_div_right (by omega)

theorem lpad_lt : split.lpad < split.block := Nat.mod_lt _ split.block_pos

theorem start_eq : split.start = split.first * split.block + split.lpad :=
  (Nat.div_add_mod' split.start split.block).symm

private theorem first_bounds : split.first * split.block ≤ split.start ∧
    split.start < split.first * split.block + split.block ∧
    split.start = split.first * split.block + split.lpad := by
  have startEq := split.start_eq
  have small := split.lpad_lt
  omega

theorem last_bounds : split.last * split.block < split.start + split.length ∧
    split.start + split.length ≤ split.last * split.block + split.block := by
  have decomposed := Nat.div_add_mod' (split.start + split.length - 1) split.block
  have small := Nat.mod_lt (split.start + split.length - 1) split.block_pos
  have positive := split.length_pos
  simp only [last]
  omega

private theorem last_rpad : split.start + split.length + split.rpad = split.last * split.block + split.block := by
  obtain ⟨above, below⟩ := split.last_bounds
  have positive := split.block_pos
  by_cases full : split.start + split.length = split.last * split.block + split.block
  · have aligned : (split.start + split.length) % split.block = 0 := by
      rw [full, ← Nat.succ_mul]
      exact Nat.mul_mod_left _ _
    simp only [rpad, aligned, Nat.sub_zero, Nat.mod_self]
    omega
  · have remainder : (split.start + split.length) % split.block =
        split.start + split.length - split.last * split.block := by
      conv_lhs => rw [show split.start + split.length =
        split.start + split.length - split.last * split.block + split.last * split.block by omega]
      rw [Nat.add_mul_mod_self_right, Nat.mod_eq_of_lt (by omega)]
    simp only [rpad, remainder]
    rw [Nat.mod_eq_of_lt (by omega)]
    omega

private theorem mul_bounds {c : Nat} (least : split.first ≤ c) (most : c ≤ split.last) :
    (c = split.first ∨ split.first * split.block + split.block ≤ c * split.block) ∧
      (c = split.last ∨ c * split.block + split.block ≤ split.last * split.block) := by
  constructor
  · rcases Nat.eq_or_lt_of_le least with same | less
    · exact .inl same.symm
    · right
      rw [← Nat.succ_mul]
      exact Nat.mul_le_mul_right _ less
  · rcases Nat.eq_or_lt_of_le most with same | less
    · exact .inl same
    · right
      rw [← Nat.succ_mul]
      exact Nat.mul_le_mul_right _ less

/-- A piece is a whole block, less the paddings at the two ends of the range. -/
theorem size_add_pads {c : Nat} (least : split.first ≤ c) (most : c ≤ split.last) :
    split.size c + (if c = split.first then split.lpad else 0) +
      (if c = split.last then split.rpad else 0) = split.block := by
  obtain ⟨firstLo, firstHi, startEq⟩ := split.first_bounds
  obtain ⟨lastLo, lastHi⟩ := split.last_bounds
  have endEq := split.last_rpad
  obtain ⟨left, right⟩ := split.mul_bounds least most
  simp only [size, lo, hi]
  split_ifs with isFirst isLast isLast
  · rw [isFirst] at isLast
    rw [isFirst]
    rw [← isLast] at endEq lastLo lastHi
    omega
  · rw [isFirst]
    rw [isFirst] at right isLast
    omega
  · rw [isLast]
    rw [isLast] at left isFirst
    omega
  · omega

theorem size_pos {c : Nat} (least : split.first ≤ c) (most : c ≤ split.last) : 0 < split.size c := by
  obtain ⟨firstLo, firstHi, startEq⟩ := split.first_bounds
  obtain ⟨lastLo, lastHi⟩ := split.last_bounds
  have positive := split.length_pos
  have block := split.block_pos
  obtain ⟨left, right⟩ := split.mul_bounds least most
  simp only [size, lo, hi]
  rcases left with rfl | left <;> rcases right with same | right
  all_goals first | omega | (rw [← same] at lastLo; omega)

theorem size_first : split.size split.first = min split.length (split.block - split.lpad) := by
  have startEq := split.start_eq
  have small := split.lpad_lt
  simp only [size, lo, hi]
  omega

theorem size_inner {c : Nat} (least : split.first ≤ c) (less : c < split.last)
    (aligned : c = split.first → split.lpad = 0) : split.size c = split.block := by
  have pads := split.size_add_pads least (Nat.le_of_lt less)
  rw [if_neg (Nat.ne_of_lt less)] at pads
  split_ifs at pads with isFirst
  · have zero := aligned isFirst
    omega
  · omega

theorem origin_add_size_le {c : Nat} (least : split.first ≤ c) (most : c ≤ split.last) :
    split.origin c + split.size c ≤ split.length := by
  have positive := split.size_pos least most
  simp only [origin, size, lo, hi] at positive ⊢
  omega

theorem pos_add_size_le (c : Nat) : split.pos c + split.size c ≤ split.block ∨ split.size c = 0 := by
  simp only [pos, size, lo, hi]
  omega

/-- In a block that both reach, the pieces of disjoint ranges are disjoint. -/
theorem pieces_disjoint {one other : BlockSplit} (same : one.block = other.block)
    (apart : one.start + one.length ≤ other.start ∨ other.start + other.length ≤ one.start) {c : Nat} (piece : 0 < one.size c)
    (piece' : 0 < other.size c) : one.pos c + one.size c ≤ other.pos c ∨ other.pos c + other.size c ≤ one.pos c := by
  simp only [pos, size, lo, hi, same] at *
  omega

theorem pos_eq {c : Nat} (least : split.first ≤ c) (most : c ≤ split.last) :
    split.pos c = if c = split.first then split.lpad else 0 := by
  obtain ⟨firstLo, firstHi, startEq⟩ := split.first_bounds
  obtain ⟨left, _⟩ := split.mul_bounds least most
  simp only [pos, lo]
  split_ifs with isFirst
  · rw [isFirst]
    omega
  · rcases left with same | left
    · exact absurd same isFirst
    · omega

theorem origin_eq {c : Nat} (least : split.first ≤ c) (most : c ≤ split.last) :
    split.origin c = if c = split.first then 0 else c * split.block - split.start := by
  obtain ⟨firstLo, firstHi, startEq⟩ := split.first_bounds
  obtain ⟨left, _⟩ := split.mul_bounds least most
  simp only [origin, lo]
  split_ifs with isFirst
  · rw [isFirst]
    omega
  · rcases left with same | left
    · exact absurd same isFirst
    · omega

theorem size_le_length (c : Nat) : split.size c ≤ split.length := by
  simp only [size, lo, hi]
  omega

/-- The bytes of the range that lie in the given blocks. -/
def total (blocks : List Nat) : Nat := (blocks.map split.size).sum

@[simp] theorem total_nil : split.total [] = 0 := rfl

@[simp] theorem total_cons (c : Nat) (blocks : List Nat) :
    split.total (c :: blocks) = split.size c + split.total blocks := by
  simp [total]

@[simp] theorem total_append (blocks others : List Nat) :
    split.total (blocks ++ others) = split.total blocks + split.total others := by
  simp [total]

theorem total_take_le (blocks : List Nat) (k : Nat) : split.total (blocks.take k) ≤ split.total blocks := by
  conv_rhs => rw [← List.take_append_drop k blocks, total_append]
  exact Nat.le_add_right _ _

private theorem pad_cons {c other : Nat} {blocks : List Nat} (absent : c ∉ blocks) (pad : Nat) :
    (if other ∈ c :: blocks then pad else 0) =
      (if c = other then pad else 0) + (if other ∈ blocks then pad else 0) := by
  by_cases same : c = other
  · subst other
    simp [absent]
  · simp [same, Ne.symm same]

/-- The pieces of any set of blocks together: whole blocks, less the padding of each
end that is in the set. -/
theorem total_add_pads {blocks : List Nat} (distinct : blocks.Nodup)
    (inside : ∀ c ∈ blocks, split.first ≤ c ∧ c ≤ split.last) :
    split.total blocks + (if split.first ∈ blocks then split.lpad else 0) +
      (if split.last ∈ blocks then split.rpad else 0) = blocks.length * split.block := by
  induction blocks with
  | nil => simp
  | cons c blocks ih =>
    obtain ⟨absent, distinct⟩ := List.nodup_cons.mp distinct
    have rest := ih distinct (fun c member => inside c (by simp [member]))
    have here := split.size_add_pads (inside c (by simp)).1 (inside c (by simp)).2
    simp only [total_cons, List.length_cons, Nat.succ_mul, pad_cons absent]
    omega

/-- All the pieces together are the range. -/
theorem total_range : split.total (List.range' split.first (split.last + 1 - split.first)) = split.length := by
  have ordered := split.first_le_last
  have inside : ∀ c ∈ List.range' split.first (split.last + 1 - split.first), split.first ≤ c ∧ c ≤ split.last := by
    intro c member
    rw [List.mem_range'_1] at member
    omega
  have pads := split.total_add_pads List.nodup_range' inside
  have ends := split.last_rpad
  have startEq := split.start_eq
  rw [if_pos (List.mem_range'_1.mpr (by omega)), if_pos (List.mem_range'_1.mpr (by omega)), List.length_range'] at pads
  have count : (split.last + 1 - split.first) * split.block + split.first * split.block =
      split.last * split.block + split.block := by
    rw [← Nat.add_mul, Nat.sub_add_cancel (by omega), Nat.succ_mul]
  omega

/-- A weight of the blocks may be summed owner by owner. -/
theorem sum_owners {owners blocks : List Nat} (owner weight : Nat → Nat) (distinct : owners.Nodup)
    (covered : ∀ c ∈ blocks, owner c ∈ owners) :
    (owners.map fun other => ((blocks.filter fun c => decide (owner c = other)).map weight).sum).sum = (blocks.map weight).sum := by
  induction blocks with
  | nil => simp
  | cons c blocks ih =>
    have rest := ih fun other member => covered other (List.mem_cons_of_mem _ member)
    have step : ∀ other, (((c :: blocks).filter fun c => decide (owner c = other)).map weight).sum =
        (if owner c = other then weight c else 0) + ((blocks.filter fun c => decide (owner c = other)).map weight).sum := by
      intro other
      rw [List.filter_cons]
      by_cases same : owner c = other <;> simp [same]
    simp only [step]
    rw [List.sum_map_add, rest, List.map_cons, List.sum_cons]
    congr 1
    rw [List.sum_map_eq_nsmul_single (owner c)]
    · simp [List.count_eq_one_of_mem distinct (covered c (by simp))]
    · intro other different _
      exact if_neg (Ne.symm different)

/-- The blocks that the range has a piece of. -/
def blocks : List Nat := List.range' split.first (split.last + 1 - split.first)

theorem mem_blocks {c : Nat} : c ∈ split.blocks ↔ split.first ≤ c ∧ c ≤ split.last := by
  have ordered := split.first_le_last
  rw [blocks, List.mem_range'_1]
  omega

theorem inside_iff (c : Nat) : split.first ≤ c ∧ c ≤ split.last ↔
    split.start < (c + 1) * split.block ∧ c * split.block < split.start + split.length := by
  have positive := split.length_pos
  rw [first, last, ← Nat.lt_add_one_iff, Nat.div_lt_iff_lt_mul split.block_pos, Nat.le_div_iff_mul_le split.block_pos]
  omega

/-- A piece ends where its block or the range does. -/
theorem lt_pos_add_size {c index : Nat} (inside : split.first ≤ c ∧ c ≤ split.last) (small : index < split.block) :
    index < split.pos c + split.size c ↔ c * split.block + index < split.start + split.length := by
  have positive := split.size_pos inside.1 inside.2
  simp only [pos, size, lo, hi] at positive ⊢
  omega

/-- The positions of the range, block by block. -/
theorem pieces_perm : (split.blocks.flatMap fun c => List.range' (split.origin c) (split.size c)).Perm (List.range split.length) := by
  refine (List.perm_ext_iff_of_nodup ?_ List.nodup_range).mpr fun i => ?_
  · refine List.nodup_flatMap.mpr ⟨fun c _ => List.nodup_range', List.Pairwise.imp ?_ List.nodup_range'⟩
    intro c other different i here there
    rw [List.mem_range'_1, split.mem_piece_origin] at here there
    exact different (here.1.symm.trans there.1)
  · simp only [List.mem_flatMap, List.mem_range'_1, List.mem_range, split.mem_piece_origin]
    constructor
    · rintro ⟨c, _, _, inside⟩
      exact inside
    · intro inside
      exact ⟨_, split.mem_blocks.mpr ⟨Nat.div_le_div_right (by omega), Nat.div_le_div_right (by omega)⟩, rfl, inside⟩

/-- Counting positions that come first in their pieces. -/
theorem countP_pieces {counted : Nat → Bool} {leading : Nat → Nat}
    (first_in_piece : ∀ c ∈ split.blocks, leading c ≤ split.size c ∧
      ∀ k < split.size c, counted (split.origin c + k) = decide (k < leading c)) :
    (List.range split.length).countP counted = (split.blocks.map leading).sum := by
  rw [← split.pieces_perm.countP_eq, List.countP_flatMap]
  congr 1
  refine List.map_congr_left fun c member => ?_
  obtain ⟨short, prefixed⟩ := first_in_piece c member
  obtain ⟨rest, parts⟩ := Nat.exists_eq_add_of_le short
  have leads : (List.range' (split.origin c) (leading c)).countP counted = leading c := by
    rw [List.countP_eq_length.mpr, List.length_range']
    intro i inside
    rw [List.mem_range'_1] at inside
    rw [show i = split.origin c + (i - split.origin c) by omega, prefixed _ (by omega)]
    exact decide_eq_true (by omega)
  have trails : (List.range' (split.origin c + leading c) rest).countP counted = 0 := by
    refine List.countP_eq_zero.mpr fun i inside => ?_
    rw [List.mem_range'_1] at inside
    rw [show i = split.origin c + (i - split.origin c) by omega, prefixed _ (by omega), decide_eq_true_eq]
    omega
  rw [Function.comp_apply, parts, ← List.range'_append_1, List.countP_append, leads, trails, Nat.add_zero]

end BlockSplit
