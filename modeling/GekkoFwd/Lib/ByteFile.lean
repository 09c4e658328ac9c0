import Mathlib.Data.List.Basic
import Mathlib.Algebra.GroupWithZero.Nat
import Mathlib.Tactic.SplitIfs

/-! Contents of one regular file under positional I/O. A write past the end leaves
a hole that reads as zeros; reading stops at the end of the contents. -/

namespace ByteFile

variable {β : Type*}

def pread (content : List β) (count offset : Nat) : List β :=
  (content.drop offset).take count

theorem getElem?_pread (content : List β) (count offset index : Nat) :
    (pread content count offset)[index]? = if index < count then content[offset + index]? else none := by
  simp only [pread, List.getElem?_take, List.getElem?_drop]

theorem length_pread (content : List β) (count offset : Nat) :
    (pread content count offset).length = min count (content.length - offset) := by
  simp [pread]

/-- Two reads in a row are one read of both lengths. -/
theorem pread_append (content : List β) (first second offset : Nat) :
    pread content first offset ++ pread content second (offset + first) =
      pread content (first + second) offset := by
  simp only [pread, ← List.drop_drop, List.take_add]

/-- A short read is a full read of as many bytes. -/
theorem pread_length_self (content : List β) (count offset : Nat) :
    pread content (pread content count offset).length offset = pread content count offset := by
  rw [pread, pread, List.length_take, List.take_eq_take_iff]
  omega

/-- A caller's buffer after a read into it. What lies past the end stays as it was. -/
def fill (content : List β) (offset : Nat) (buf : List β) : List β :=
  pread content buf.length offset ++ buf.drop (content.length - offset)

@[simp] theorem length_fill (content : List β) (offset : Nat) (buf : List β) : (fill content offset buf).length = buf.length := by
  rw [fill, List.length_append, length_pread, List.length_drop]
  omega

theorem getElem?_fill (content : List β) (offset : Nat) {buf : List β} {index : Nat} (inside : index < buf.length) :
    (fill content offset buf)[index]? = content[offset + index]?.or buf[index]? := by
  have length := length_pread content buf.length offset
  rw [fill]
  by_cases present : offset + index < content.length
  · rw [List.getElem?_append_left (by omega), getElem?_pread, if_pos inside, List.getElem?_eq_getElem present, Option.some_or]
  · rw [List.getElem?_append_right (by omega), List.getElem?_drop, List.getElem?_eq_none (by omega : content.length ≤ offset + index),
      Option.none_or]
    congr 1
    omega

theorem fill_past_end {content : List β} {offset : Nat} (past : content.length ≤ offset) (buf : List β) :
    fill content offset buf = buf := by
  rw [fill, pread, List.drop_eq_nil_of_le past, Nat.sub_eq_zero_of_le past]
  simp

theorem fill_append (content : List β) (offset : Nat) (first second : List β) :
    fill content offset (first ++ second) = fill content offset first ++ fill content (offset + first.length) second := by
  by_cases short : content.length - offset ≤ first.length
  · have none : fill content (offset + first.length) second = second := fill_past_end (by omega) second
    have all : pread content (first.length + second.length) offset = pread content first.length offset := by
      rw [pread, pread, List.take_eq_take_iff, List.length_drop]
      omega
    rw [none, fill, fill, List.length_append, all, List.drop_append_of_le_length short, List.append_assoc]
  · rw [fill, fill, fill, List.length_append, ← pread_append, List.drop_append, List.drop_eq_nil_of_le (by omega),
      List.append_nil, List.nil_append, List.append_assoc, Nat.sub_sub]

/-- Buffers filled one behind the other. -/
def scatter (content : List β) : Nat → List (List β) → List (List β)
  | _, [] => []
  | offset, buf :: bufs => fill content offset buf :: scatter content (offset + buf.length) bufs

theorem scatter_past_end {content : List β} {offset : Nat} (past : content.length ≤ offset) (bufs : List (List β)) :
    scatter content offset bufs = bufs := by
  induction bufs generalizing offset with
  | nil => rfl
  | cons buf bufs ih => rw [scatter, fill_past_end past, ih (by omega)]

/-- Scattering is one read, cut at the ends of the buffers. -/
theorem flatten_scatter (content : List β) (offset : Nat) (bufs : List (List β)) :
    (scatter content offset bufs).flatten = fill content offset bufs.flatten := by
  induction bufs generalizing offset with
  | nil => simp [scatter, fill, pread]
  | cons buf bufs ih => rw [scatter, List.flatten_cons, ih, List.flatten_cons, fill_append]

theorem map_length_scatter (content : List β) (offset : Nat) (bufs : List (List β)) :
    (scatter content offset bufs).map List.length = bufs.map List.length := by
  induction bufs generalizing offset with
  | nil => rfl
  | cons buf bufs ih => rw [scatter, List.map_cons, List.map_cons, ih, length_fill]

variable [Zero β]

/-- The contents after `data` has been stored at `offset` in full. Writing nothing
does not extend a file. -/
def pwrite (content data : List β) (offset : Nat) : List β :=
  if data = [] then content
  else (content ++ List.replicate (offset - content.length) 0).take offset ++ data ++
    content.drop (offset + data.length)

def truncate (content : List β) (length : Nat) : List β :=
  (content ++ List.replicate (length - content.length) 0).take length

theorem pwrite_nil (content : List β) (offset : Nat) : pwrite content [] offset = content := if_pos rfl

theorem getElem?_pwrite {content data : List β} (some_data : data ≠ []) (offset index : Nat) :
    (pwrite content data offset)[index]? =
      if index < offset then (if index < content.length then content[index]? else some 0)
      else if index < offset + data.length then data[index - offset]? else content[index]? := by
  have padded : ((content ++ List.replicate (offset - content.length) 0).take offset).length = offset := by
    simp only [List.length_take, List.length_append, List.length_replicate]
    omega
  rw [pwrite, if_neg some_data, List.append_assoc]
  by_cases before : index < offset
  · rw [List.getElem?_append_left (by omega), List.getElem?_take_of_lt before, if_pos before]
    by_cases inside : index < content.length
    · rw [List.getElem?_append_left inside, if_pos inside]
    · rw [List.getElem?_append_right (by omega), if_neg inside, List.getElem?_replicate, if_pos (by omega)]
  · rw [List.getElem?_append_right (by omega), padded, if_neg before]
    by_cases inside : index < offset + data.length
    · rw [List.getElem?_append_left (by omega), if_pos inside]
    · rw [List.getElem?_append_right (by omega), if_neg inside, List.getElem?_drop]
      congr 1
      omega

theorem length_pwrite {content data : List β} (some_data : data ≠ []) (offset : Nat) :
    (pwrite content data offset).length = max content.length (offset + data.length) := by
  simp only [pwrite, if_neg some_data, List.length_append, List.length_take, List.length_replicate,
    List.length_drop]
  omega

/-- A buffer that takes what was read at its front. -/
theorem pwrite_pread (content buf : List β) (offset : Nat) : pwrite buf (pread content buf.length offset) 0 = fill content offset buf := by
  have length := length_pread content buf.length offset
  by_cases none : pread content buf.length offset = []
  · rw [pwrite, if_pos none, fill, none, List.nil_append]
    rw [none, List.length_nil] at length
    by_cases empty : buf.length = 0
    · rw [List.eq_nil_of_length_eq_zero empty, List.drop_nil]
    · rw [show content.length - offset = 0 by omega, List.drop_zero]
  · rw [pwrite, if_neg none, List.take_zero, List.nil_append, fill, length, Nat.zero_add]
    by_cases short : content.length - offset ≤ buf.length
    · rw [Nat.min_eq_right short]
    · rw [Nat.min_eq_left (by omega), List.drop_length, List.drop_eq_nil_of_le (by omega)]

/-- Two stores in a row are one store of both. -/
theorem pwrite_append (content first second : List β) (offset : Nat) :
    pwrite (pwrite content first offset) second (offset + first.length) = pwrite content (first ++ second) offset := by
  by_cases none₁ : first = []
  · simp [pwrite, none₁]
  by_cases none₂ : second = []
  · simp [pwrite, none₂]
  have both : first ++ second ≠ [] := by simp [none₁]
  apply List.ext_getElem?
  intro index
  rw [getElem?_pwrite none₂, getElem?_pwrite none₁, getElem?_pwrite both, length_pwrite none₁, List.length_append,
    List.getElem?_append]
  split_ifs <;> first | rfl | omega | (congr 1; omega)

/-- Stores to disjoint ranges may be made in either order. -/
theorem pwrite_comm {content first second : List β} {offset₁ offset₂ : Nat}
    (disjoint : offset₁ + first.length ≤ offset₂ ∨ offset₂ + second.length ≤ offset₁) :
    pwrite (pwrite content first offset₁) second offset₂ =
      pwrite (pwrite content second offset₂) first offset₁ := by
  by_cases none₁ : first = []
  · simp [pwrite, none₁]
  by_cases none₂ : second = []
  · simp [pwrite, none₂]
  apply List.ext_getElem?
  intro index
  simp only [getElem?_pwrite none₁, getElem?_pwrite none₂, length_pwrite none₁, length_pwrite none₂]
  have size₁ := List.length_pos_iff.mpr none₁
  have size₂ := List.length_pos_iff.mpr none₂
  by_cases in₁ : offset₁ ≤ index ∧ index < offset₁ + first.length
  · have before : offset₂ + second.length ≤ index ∨ index < offset₂ := by omega
    grind
  · by_cases in₂ : offset₂ ≤ index ∧ index < offset₂ + second.length
    · grind
    · grind

/-- The contents after several stores, each an offset with its data. -/
def pwriteAll (content : List β) (stores : List (Nat × List β)) : List β :=
  stores.foldl (fun filled store => pwrite filled store.2 store.1) content

theorem getElem?_pwrite_of_lt {content data : List β} {offset index : Nat} (inside : index < content.length) :
    (pwrite content data offset)[index]? =
      if offset ≤ index ∧ index < offset + data.length then data[index - offset]? else content[index]? := by
  by_cases none : data = []
  · simp only [pwrite, none, if_true, List.length_nil]
    rw [if_neg (by omega)]
  · rw [getElem?_pwrite none]
    split_ifs <;> first | rfl | omega

theorem getElem?_pwrite_of_le {content data : List β} {offset index : Nat} (behind : offset ≤ index) :
    (pwrite content data offset)[index]? = if index < offset + data.length then data[index - offset]? else content[index]? := by
  by_cases none : data = []
  · simp only [pwrite, none, if_true, List.length_nil]
    rw [if_neg (by omega)]
  · rw [getElem?_pwrite none, if_neg (by omega)]

theorem length_pwrite_of_le {content data : List β} {offset : Nat} (inside : offset + data.length ≤ content.length) :
    (pwrite content data offset).length = content.length := by
  by_cases none : data = []
  · simp [pwrite, none]
  · rw [length_pwrite none]
    omega

/-- A store leaves what lies beside it. -/
theorem pread_pwrite_of_disjoint {content data : List β} {count start offset : Nat} (inside : start + count ≤ content.length)
    (disjoint : offset + data.length ≤ start ∨ start + count ≤ offset) :
    pread (pwrite content data offset) count start = pread content count start := by
  apply List.ext_getElem?
  intro index
  rw [getElem?_pread, getElem?_pread]
  split
  next small => rw [getElem?_pwrite_of_lt (by omega), if_neg (by omega)]
  next => rfl

/-- What was stored last continues what was there. -/
theorem pread_pwrite_behind {content bytes : List β} {start : Nat} (held : pread content bytes.length start = bytes) (more : List β) :
    pread (pwrite content more (start + bytes.length)) (bytes ++ more).length start = bytes ++ more := by
  apply List.ext_getElem?
  intro index
  by_cases empty : more = []
  · rw [empty, List.append_nil, pwrite, if_pos rfl, held]
  have earlier : ∀ index < bytes.length, bytes[index]? = content[start + index]? := by
    intro index small
    conv_lhs => rw [← held, getElem?_pread, if_pos small]
  rw [getElem?_pread, getElem?_pwrite empty, List.length_append, List.getElem?_append]
  by_cases first : index < bytes.length
  · have present : start + index < content.length := by
      have some_byte := earlier index first
      rw [List.getElem?_eq_getElem first] at some_byte
      exact (List.getElem?_eq_some_iff.mp some_byte.symm).1
    rw [if_pos (by omega), if_pos (by omega), if_pos present, if_pos first, earlier index first]
  · rw [if_neg first]
    by_cases second : index < bytes.length + more.length
    · rw [if_pos second, if_neg (by omega), if_pos (by omega), Nat.add_sub_add_left]
    · rw [if_neg second, List.getElem?_eq_none (by omega)]

/-- Stores that all agree with one target leave it wherever one of them reaches. -/
theorem pwriteAll_spec {content target : List β} {stores : List (Nat × List β)} (sameLength : content.length = target.length)
    (agree : ∀ store ∈ stores, store.1 + store.2.length ≤ target.length ∧
      store.2 = pread target store.2.length store.1) :
    (pwriteAll content stores).length = target.length ∧
      ∀ index < target.length, (pwriteAll content stores)[index]? =
        if ∃ store ∈ stores, store.1 ≤ index ∧ index < store.1 + store.2.length then target[index]? else content[index]? := by
  induction stores generalizing content with
  | nil => exact ⟨sameLength, by simp [pwriteAll]⟩
  | cons store stores ih =>
    obtain ⟨fits, copy⟩ := agree store (by simp)
    have kept : (pwrite content store.2 store.1).length = target.length := by
      rw [length_pwrite_of_le (by omega), sameLength]
    obtain ⟨length, reads⟩ := ih kept fun other member => agree other (List.mem_cons_of_mem _ member)
    refine ⟨length, fun index inside => ?_⟩
    have step : (pwriteAll content (store :: stores))[index]? =
        (pwriteAll (pwrite content store.2 store.1) stores)[index]? := rfl
    rw [step, reads index inside, getElem?_pwrite_of_lt (by omega)]
    by_cases later : ∃ other ∈ stores, other.1 ≤ index ∧ index < other.1 + other.2.length
    · obtain ⟨other, member, reached⟩ := later
      rw [if_pos ⟨other, member, reached⟩, if_pos ⟨other, List.mem_cons_of_mem _ member, reached⟩]
    · rw [if_neg later]
      by_cases here : store.1 ≤ index ∧ index < store.1 + store.2.length
      · rw [if_pos here, if_pos ⟨store, by simp, here⟩, copy, getElem?_pread, if_pos (by omega)]
        congr 1
        omega
      · rw [if_neg here, if_neg]
        rintro ⟨other, member, reached⟩
        rcases List.mem_cons.mp member with rfl | member
        · exact here reached
        · exact later ⟨other, member, reached⟩

section Packed
variable {ι : Type*} {width : ι → Nat} {piece : ι → List β} {items before after : List ι} {item : ι}

/-- Room for one piece after the other, each padded to its own width. -/
def slots (width : ι → Nat) (piece : ι → List β) (items : List ι) : List β :=
  items.flatMap fun item => piece item ++ List.replicate (width item - (piece item).length) 0

theorem length_slots (fits : ∀ item ∈ items, (piece item).length ≤ width item) :
    (slots width piece items).length = (items.map width).sum := by
  induction items with
  | nil => rfl
  | cons item items ih =>
    have here := fits item List.mem_cons_self
    have rest := ih fun other member => fits other (List.mem_cons_of_mem _ member)
    simp only [slots, List.flatMap_cons, List.length_append, List.length_replicate, List.map_cons, List.sum_cons] at rest ⊢
    omega

theorem pread_slots (fits : ∀ item ∈ items, (piece item).length ≤ width item) (parts : items = before ++ item :: after) :
    pread (slots width piece items) (piece item).length (before.map width).sum = piece item := by
  have ahead := length_slots fun other member => fits other (parts ▸ List.mem_append_left _ member)
  rw [parts, slots, List.flatMap_append, List.flatMap_cons, pread, ← ahead, slots, List.drop_left, List.append_assoc, List.take_left]

/-- A buffer that gets every piece at the place of its slot holds every piece. -/
theorem pread_packed (fits : ∀ item ∈ items, (piece item).length ≤ width item) {stores : List (Nat × List β)}
    (placed : ∀ store, store ∈ stores ↔ ∃ before item after, items = before ++ item :: after ∧ store = ((before.map width).sum, piece item))
    (parts : items = before ++ item :: after) :
    pread (pwriteAll (List.replicate (items.map width).sum 0) stores) (piece item).length (before.map width).sum = piece item := by
  have length := length_slots fits
  have bound : ∀ {before after item}, items = before ++ item :: after →
      (before.map width).sum + (piece item).length ≤ (items.map width).sum := by
    intro before after item parts
    have here := fits item (by simp [parts])
    rw [parts, List.map_append, List.sum_append, List.map_cons, List.sum_cons]
    omega
  obtain ⟨_, reads⟩ := pwriteAll_spec
    (show (List.replicate (items.map width).sum (0 : β)).length = (slots width piece items).length by rw [List.length_replicate, length])
    (by
      intro store member
      obtain ⟨before, item, after, parts, rfl⟩ := (placed store).mp member
      rw [length]
      exact ⟨bound parts, (pread_slots fits parts).symm⟩)
  have within := bound parts
  conv_rhs => rw [← pread_slots fits parts]
  apply List.ext_getElem?
  intro index
  rw [getElem?_pread, getElem?_pread]
  split
  next small =>
    refine (reads _ (by omega)).trans (if_pos ⟨_, (placed _).mpr ⟨before, item, after, parts, rfl⟩, Nat.le_add_right _ _, ?_⟩)
    exact Nat.add_lt_add_left small _
  next => rfl

end Packed

theorem getElem?_truncate (content : List β) (length index : Nat) :
    (truncate content length)[index]? =
      if index < length then (if index < content.length then content[index]? else some 0) else none := by
  by_cases kept : index < length
  · rw [truncate, List.getElem?_take_of_lt kept, if_pos kept]
    by_cases inside : index < content.length
    · rw [List.getElem?_append_left inside, if_pos inside]
    · rw [List.getElem?_append_right (by omega), if_neg inside, List.getElem?_replicate, if_pos (by omega)]
  · rw [truncate, if_neg kept, List.getElem?_eq_none]
    simp only [List.length_take]
    omega

end ByteFile
