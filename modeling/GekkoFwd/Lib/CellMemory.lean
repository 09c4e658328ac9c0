import Mathlib.Data.List.GetD
import Mathlib.Data.Nat.Digits.Defs

/-! Memory as a function of the address. A store says what it changes, so that a write past
the end of a buffer is visible. -/

namespace CellMemory

variable {β : Type*}

def store (memory : Nat → β) (address : Nat) (data : List β) : Nat → β := fun cell =>
  if address ≤ cell then data.getD (cell - address) (memory cell) else memory cell

/-- The cells from an address on. -/
def window (memory : Nat → β) (address count : Nat) : List β := (List.range count).map fun index => memory (address + index)

variable {memory : Nat → β} {address cell : Nat} {data : List β}

theorem store_before (before : cell < address) : store memory address data cell = memory cell :=
  if_neg (Nat.not_le.mpr before)

theorem store_behind (behind : address + data.length ≤ cell) : store memory address data cell = memory cell := by
  rw [store, if_pos (by omega), List.getD_eq_default _ _ (by omega)]

theorem store_inside {index : Nat} (inside : index < data.length) : store memory address data (address + index) = data[index] := by
  rw [store, if_pos (Nat.le_add_right _ _), Nat.add_sub_cancel_left, List.getD_eq_getElem _ _ inside]

theorem store_cases (memory : Nat → β) (address : Nat) (data : List β) (cell : Nat) :
    (cell < address ∨ address + data.length ≤ cell) ∧ store memory address data cell = memory cell ∨
      ∃ index, ∃ inside : index < data.length, cell = address + index ∧ store memory address data cell = data[index] := by
  by_cases before : cell < address
  · exact .inl ⟨.inl before, store_before before⟩
  by_cases behind : address + data.length ≤ cell
  · exact .inl ⟨.inr behind, store_behind behind⟩
  · refine .inr ⟨cell - address, by omega, by omega, ?_⟩
    have inside := @store_inside _ memory address data (cell - address) (by omega)
    rwa [Nat.add_sub_of_le (by omega)] at inside

theorem store_append (memory : Nat → β) (address : Nat) (first second : List β) :
    store (store memory address first) (address + first.length) second = store memory address (first ++ second) := by
  funext cell
  rcases store_cases memory address (first ++ second) cell with ⟨outside, kept⟩ | ⟨index, inside, rfl, stored⟩
  · rw [kept]
    rw [List.length_append] at outside
    rcases outside with before | behind
    · rw [store_before (by omega), store_before before]
    · rw [store_behind (by omega), store_behind (by omega)]
  · rw [stored, List.getElem_append]
    split
    · next left => rw [store_before (by omega), store_inside left]
    · next right =>
      rw [List.length_append] at inside
      have moved : address + index = address + first.length + (index - first.length) := by omega
      rw [moved, store_inside (by omega)]

theorem store_comm (memory : Nat → β) {left right : Nat} {first second : List β} (apart : left + first.length ≤ right) :
    store (store memory right second) left first = store (store memory left first) right second := by
  funext cell
  rcases store_cases memory left first cell with ⟨outside, kept⟩ | ⟨index, inside, rfl, stored⟩
  · have moved : store (store memory right second) left first cell = store memory right second cell := by
      rcases outside with before | behind
      · exact store_before before
      · exact store_behind behind
    rw [moved]
    rcases store_cases memory right second cell with ⟨away, same⟩ | ⟨index, inside, rfl, stored⟩
    · rw [same]
      rcases away with before | behind
      · rw [store_before before, kept]
      · rw [store_behind behind, kept]
    · rw [stored, store_inside inside]
  · rw [store_inside inside, store_before (by omega), stored]

@[simp] theorem length_window (memory : Nat → β) (address count : Nat) : (window memory address count).length = count := by
  simp [window]

theorem window_congr {other : Nat → β} {count : Nat} (same : ∀ index < count, memory (address + index) = other (address + index)) :
    window memory address count = window other address count :=
  List.map_congr_left fun index member => same index (List.mem_range.mp member)

theorem window_store (memory : Nat → β) (address : Nat) {count : Nat} (full : data.length = count) :
    window (store memory address data) address count = data := by
  subst full
  apply List.ext_getElem (by simp)
  intro index _ inside
  simp [window, store_inside inside]

theorem window_add (memory : Nat → β) (address first second : Nat) :
    window memory address (first + second) = window memory address first ++ window memory (address + first) second := by
  simp [window, List.range_add, Nat.add_assoc]

/-- A window beside a store shows what it showed before. -/
theorem window_store_apart {count : Nat} {start : Nat} (apart : start + count ≤ address ∨ address + data.length ≤ start) :
    window (store memory address data) start count = window memory start count := by
  refine window_congr fun index inside => ?_
  rcases apart with before | behind
  · exact store_before (by omega)
  · exact store_behind (by omega)

/-! Numbers in memory, with their lowest digit first. -/

/-- The lowest `width` digits of a number in base 256. -/
def digits : (width value : Nat) → List Nat
  | 0, _ => []
  | width + 1, value => value % 256 :: digits width (value / 256)

@[simp] theorem length_digits (width value : Nat) : (digits width value).length = width := by
  induction width generalizing value with
  | zero => rfl
  | succ width ih => simp [digits, ih]

theorem lt_of_mem_digits {width value digit : Nat} (member : digit ∈ digits width value) : digit < 256 := by
  induction width generalizing value with
  | zero => cases member
  | succ width ih =>
    rcases List.mem_cons.mp member with rfl | later
    · exact Nat.mod_lt _ (by decide)
    · exact ih later

theorem ofDigits_digits (width value : Nat) : Nat.ofDigits 256 (digits width value) = value % 256 ^ width := by
  induction width generalizing value with
  | zero => simp [digits, Nat.mod_one]
  | succ width ih =>
    rw [digits, Nat.ofDigits_cons, ih, Nat.pow_succ', Nat.mod_mul]

end CellMemory
