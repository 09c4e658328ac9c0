import Mathlib.Data.List.Lex
import Mathlib.Order.Lattice

/-! Scanning sorted texts for a prefix. In lexicographic order the texts with a common
prefix stand together, so that a scan which starts at the prefix and stops at the first
text without it misses none. -/

namespace PrefixScan
variable {α : Type} [LinearOrder α]

/-- From the first key that is not smaller than the prefix, as long as it is one. -/
def scan (start : List α) (keys : List (List α)) : List (List α) :=
  (keys.dropWhile fun key => decide (key < start)).takeWhile fun key => start.isPrefixOf key

theorem not_lt_of_prefix {start key : List α} (continued : start <+: key) : ¬ key < start := by
  induction start generalizing key with
  | nil => exact List.not_lt_nil key
  | cons first start ih =>
    obtain ⟨rest, rfl⟩ := continued
    rw [List.cons_append, List.cons_lt_cons_iff]
    rintro (before | ⟨_, before⟩)
    · exact lt_irrefl first before
    · exact ih (List.prefix_append start rest) before

/-- The texts with a prefix are convex. -/
theorem prefix_of_between {start key later : List α} (least : ¬ key < start) (most : ¬ later < key) (continued : start <+: later) :
    start <+: key := by
  induction start generalizing key later with
  | nil => exact List.nil_prefix
  | cons first start ih =>
    obtain ⟨rest, rfl⟩ := continued
    cases key with
    | nil => exact absurd (List.nil_lt_cons first start) least
    | cons head key =>
      rw [List.cons_lt_cons_iff, not_or] at least
      rw [List.cons_append, List.cons_lt_cons_iff, not_or] at most
      have same : head = first := le_antisymm (not_lt.mp most.1) (not_lt.mp least.1)
      subst same
      have within := ih (fun before => least.2 ⟨rfl, before⟩) (fun before => most.2 ⟨rfl, before⟩)
        (List.prefix_append start rest)
      exact List.cons_prefix_cons.mpr ⟨rfl, within⟩

private theorem takeWhile_eq_filter_prefix {start : List α} {keys : List (List α)} (sorted : keys.Pairwise (· ≤ ·))
    (reached : ∀ key ∈ keys, ¬ key < start) :
    keys.takeWhile (fun key => start.isPrefixOf key) = keys.filter fun key => start.isPrefixOf key := by
  induction keys with
  | nil => rfl
  | cons key keys ih =>
    obtain ⟨smallest, sorted⟩ := List.pairwise_cons.mp sorted
    by_cases continued : start.isPrefixOf key = true
    · rw [List.takeWhile_cons_of_pos continued, List.filter_cons_of_pos continued,
        ih sorted fun other member => reached other (List.mem_cons_of_mem key member)]
    · rw [List.takeWhile_cons_of_neg continued, List.filter_cons_of_neg continued, eq_comm, List.filter_eq_nil_iff]
      intro later member other
      have within := prefix_of_between (reached key List.mem_cons_self) (not_lt.mpr (smallest later member))
        (List.isPrefixOf_iff_prefix.mp other)
      exact continued (List.isPrefixOf_iff_prefix.mpr within)

theorem scan_eq_filter {start : List α} {keys : List (List α)} (sorted : keys.Pairwise (· ≤ ·)) :
    scan start keys = keys.filter fun key => start.isPrefixOf key := by
  induction keys with
  | nil => rfl
  | cons key keys ih =>
    obtain ⟨smallest, later⟩ := List.pairwise_cons.mp sorted
    unfold scan
    by_cases before : key < start
    · have not_continued : ¬ start.isPrefixOf key = true :=
        fun continued => not_lt_of_prefix (List.isPrefixOf_iff_prefix.mp continued) before
      have dropped := @List.dropWhile_cons_of_pos _ (fun key => decide (key < start)) key keys (decide_eq_true before)
      rw [dropped, List.filter_cons_of_neg not_continued, ← ih later, scan]
    · rw [List.dropWhile_cons_of_neg (by simpa using before)]
      apply takeWhile_eq_filter_prefix sorted
      intro other member
      cases member with
      | head => exact before
      | tail _ member => exact not_lt.mpr (le_trans (not_lt.mp before) (smallest other member))

end PrefixScan
