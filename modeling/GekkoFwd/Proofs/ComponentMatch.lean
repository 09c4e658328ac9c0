import Mathlib.Order.Bounds.Basic
import GekkoFwd.Lib.Words
import GekkoFwd.Proofs.PathText

/-! What `match_components` returns: its scan of the path against the longest common prefix
of the path's components and the given ones. -/

namespace GekkoFwd.Proofs.ComponentMatch
open GekkoFwd.Path PathResolver PathText

/-- The lengths of the lists that both begin with. -/
def commonLengths (names components : List Str) : Set Nat :=
  {length | ∃ common, common <+: names ∧ common <+: components ∧ common.length = length}

theorem isGreatest_shared (names components : List Str) : IsGreatest (commonLengths names components) (shared names components) := by
  fun_induction shared names components with
  | case1 names name components ih =>
    obtain ⟨⟨common, left, right, length⟩, largest⟩ := ih
    refine ⟨⟨name :: common, List.cons_prefix_cons.mpr ⟨rfl, left⟩, List.cons_prefix_cons.mpr ⟨rfl, right⟩, by simp [length]⟩, ?_⟩
    rintro _ ⟨other, left, right, rfl⟩
    cases other with
    | nil => exact Nat.zero_le _
    | cons first other =>
      exact Nat.succ_le_succ (largest ⟨other, (List.cons_prefix_cons.mp left).2, (List.cons_prefix_cons.mp right).2, rfl⟩)
  | case2 name names component components differ =>
    refine ⟨⟨[], List.nil_prefix, List.nil_prefix, rfl⟩, ?_⟩
    rintro _ ⟨other, left, right, rfl⟩
    cases other with
    | nil => exact Nat.le_refl 0
    | cons first other =>
      exact absurd ((List.cons_prefix_cons.mp left).1.symm.trans (List.cons_prefix_cons.mp right).1) differ
  | case3 names components ended =>
    refine ⟨⟨[], List.nil_prefix, List.nil_prefix, rfl⟩, ?_⟩
    rintro _ ⟨other, left, right, rfl⟩
    cases other with
    | nil => exact Nat.le_refl 0
    | cons first other =>
      obtain ⟨_, rfl⟩ := left
      obtain ⟨_, rfl⟩ := right
      exact absurd rfl (ended _ _ _ _ rfl)

section scan
variable {components rest place : List Str} {name : Str}

/-- The component that one round finds behind those that have been processed. -/
theorem found_component (isName : IsName name) (rest place : List Str) {path : Str} (whole : path = text place ++ text (name :: rest)) :
    findSeparator path ((text place).length + 1) = (text (place ++ [name])).length ∧
      (path.drop ((text place).length + 1)).take ((text (place ++ [name])).length - ((text place).length + 1)) = name := by
  have behind : path.drop ((text place).length + 1) = name ++ text rest := by
    rw [whole, text_cons, ← List.drop_drop, List.drop_left]
    rfl
  have separated : Separated (text rest) := by simpa using separated_text rest separated_nil
  have next : (text (place ++ [name])).length = (text place).length + 1 + name.length := by
    rw [text_concat, List.length_append, List.length_cons]
    omega
  refine ⟨?_, ?_⟩
  · rw [findSeparator, behind, (takeWhile_name isName.plain separated).1, next]
  · rw [behind, next, Nat.add_sub_cancel_left, List.take_left]

theorem round_text (isName : IsName name) (rest place : List Str) (matched processed : BitVec 32) :
    MatchScan.round (text place ++ text (name :: rest)) components ⟨matched, processed, (text place).length⟩ =
      (if matched = processed then
        components[matched.toNat]?.map fun component => if name = component then matched + 1 else matched
      else some matched).map fun matched => ⟨matched, processed + 1, (text (place ++ [name])).length⟩ := by
  obtain ⟨found, taken⟩ := found_component isName rest place rfl
  simp only [MatchScan.round, found, taken]
  split
  · cases components[matched.toNat]? <;> rfl
  · rfl

theorem loop_text (isName : IsName name) (rest place : List Str) (fuel : Nat) (matched processed : BitVec 32) :
    MatchScan.loop (text place ++ text (name :: rest)) components (fuel + 1) ⟨matched, processed, (text place).length⟩ =
      (MatchScan.round (text place ++ text (name :: rest)) components ⟨matched, processed, (text place).length⟩).bind
        (MatchScan.loop (text (place ++ [name]) ++ text rest) components fuel) := by
  have same : text place ++ text (name :: rest) = text (place ++ [name]) ++ text rest := by
    rw [← text_append, ← text_append, List.append_assoc, List.singleton_append]
  have more : (text place).length + 1 < (text place ++ text (name :: rest)).length := by
    have positive : 0 < name.length := List.length_pos_of_ne_nil isName.nonempty
    rw [text_cons, List.length_append, List.length_cons, List.length_append]
    omega
  rw [MatchScan.loop, if_pos more, same]
  rfl

theorem loop_ended (place : List Str) (fuel : Nat) (matched processed : BitVec 32) :
    MatchScan.loop (text place ++ text []) components fuel ⟨matched, processed, (text place).length⟩ =
      some ⟨matched, processed, (text place).length⟩ := by
  cases fuel with
  | zero => rfl
  | succ fuel =>
    rw [MatchScan.loop, if_neg (by simp [text])]

/-- The scan throws where it asks for a component behind the last one, which is when all of
them have matched and the path goes on. -/
theorem loop_from (valid : ∀ part ∈ rest, IsName part) {fuel : Nat} (enough : rest.length ≤ fuel)
    (within : ¬ (components <+: place ∧ components ≠ place)) (small : place.length + rest.length < 2 ^ 32) :
    MatchScan.loop (text place ++ text rest) components fuel
        ⟨.ofNat 32 (shared place components), .ofNat 32 place.length, (text place).length⟩ =
      if components <+: place ++ rest ∧ components ≠ place ++ rest then none
      else some ⟨.ofNat 32 (shared (place ++ rest) components), .ofNat 32 (place ++ rest).length, (text (place ++ rest)).length⟩ := by
  induction rest generalizing place fuel with
  | nil => simp only [loop_ended, List.append_nil, if_neg within]
  | cons name rest ih =>
    obtain ⟨isName, others⟩ := List.forall_mem_cons.mp valid
    rw [List.length_cons] at enough small
    obtain ⟨fuel, rfl⟩ := Nat.exists_eq_add_of_le' (Nat.le_trans (Nat.le_add_left 1 _) enough)
    have grouped : place ++ name :: rest = place ++ [name] ++ rest := by simp
    have step := shared_concat place components name
    have bound := shared_le_length place components
    have before := shared_le place components
    have counted : BitVec.ofNat 32 (shared place components) = BitVec.ofNat 32 place.length ↔ shared place components = place.length :=
      Words.ofNat_inj (by omega) (by omega)
    have value : (BitVec.ofNat 32 (shared place components)).toNat = shared place components := Words.toNat_ofNat (by omega)
    have plus : ∀ n : Nat, BitVec.ofNat 32 n + 1 = BitVec.ofNat 32 (n + 1) := fun n => by simp [BitVec.ofNat_add]
    have next : components <+: place ++ [name] ∧ components ≠ place ++ [name] → components = place := by
      rintro ⟨reached, other⟩
      rcases List.prefix_concat_iff.mp reached with same | above
      · exact absurd same other
      · exact not_not.mp fun differs => within ⟨above, differs⟩
    have later := fun passes => @ih (place ++ [name]) others fuel (by omega) passes (by simp; omega)
    rw [loop_text isName, round_text isName, value, grouped]
    simp only [counted, plus]
    by_cases all : shared place components = place.length
    · rw [if_pos all]
      cases at_ : components[shared place components]? with
      | none =>
        have full : shared place components = components.length :=
          Nat.le_antisymm bound (List.getElem?_eq_none_iff.mp at_)
        have same : components = place :=
          ((shared_eq_length_iff place components).mp full).eq_of_length (by omega)
        rw [if_pos ⟨same ▸ ⟨name :: rest, by simp⟩, by simp [same]⟩]
        rfl
      | some component =>
        have more : shared place components < components.length := (List.getElem?_eq_some_iff.mp at_).1
        have rest := later fun passed => by
          rw [all, next passed] at more
          omega
        rw [at_] at step
        simp only [all, true_and, Option.some.injEq] at step
        rw [← rest, step, List.length_append, List.length_singleton]
        simp only [Option.map_some, Option.bind_some, all, eq_comm (a := name)]
        split <;> rfl
    · rw [if_neg all]
      have rest := later fun passed => by
        apply all
        rw [(shared_eq_length_iff place components).mpr (next passed ▸ List.prefix_refl _), next passed]
      rw [step, if_neg fun both => all both.1, List.length_append, List.length_singleton] at rest
      rw [← rest]
      rfl

end scan

theorem length_le_text (names : List Str) : names.length ≤ (text names).length := by
  induction names with
  | nil => exact Nat.le_refl 0
  | cons name names ih =>
    rw [text_cons, List.length_cons, List.length_cons, List.length_append]
    omega

/-- What `match_components` returns for the path of a place. -/
theorem matchComponentsAt_join {place : List Str} (valid : ∀ name ∈ place, IsName name) (components : List Str)
    (small : place.length < 2 ^ 32) :
    matchComponentsAt (join place) components =
      if components <+: place ∧ components ≠ place then none
      else some (.ofNat 32 (shared place components), .ofNat 32 place.length) := by
  have looped := @loop_from components place [] valid _ (length_le_text place) (by simp) (by simpa using small)
  cases place with
  | nil =>
    have ended : matchComponentsAt (join []) components = some (0, 0) := rfl
    rw [ended, if_neg fun deeper => deeper.2 (List.prefix_nil.mp deeper.1), shared_nil]
    rfl
  | cons name place =>
    rw [matchComponentsAt, join_eq_text (by simp)]
    rw [shared_nil] at looped
    refine (congrArg (Option.map _) looped).trans ?_
    rw [List.nil_append]
    split <;> rfl

/-- `match_components` returns the longest common prefix and the number of components, unless
the path lies below all of the given components. -/
theorem component_match_iff {names : List Str} (valid : ∀ name ∈ names, IsName name) (components : List Str) :
    (∃ matched total, matchComponentsAt (join names) components = some (matched, total) ∧
        IsGreatest (commonLengths names components) matched.toNat ∧ total.toNat = names.length) ↔
      names.length < 2 ^ 32 ∧ ¬ (components <+: names ∧ components ≠ names) := by
  refine ⟨?_, ?_⟩
  · rintro ⟨matched, total, returned, _, count⟩
    have small : names.length < 2 ^ 32 := by
      rw [← count]
      exact total.isLt
    refine ⟨small, fun deeper => ?_⟩
    rw [matchComponentsAt_join valid components small, if_pos deeper] at returned
    cases returned
  · rintro ⟨small, within⟩
    have bound := shared_le names components
    have returned := matchComponentsAt_join valid components small
    rw [if_neg within] at returned
    refine ⟨_, _, returned, ?_, Words.toNat_ofNat small⟩
    rw [Words.toNat_ofNat (by omega)]
    exact isGreatest_shared names components

theorem component_match_iff_sibling :
    ∃ matched total, matchComponentsAt (join ["m".toList, "a".toList, "b".toList]) ["m".toList, "x".toList] = some (matched, total) ∧
      IsGreatest (commonLengths ["m".toList, "a".toList, "b".toList] ["m".toList, "x".toList]) matched.toNat ∧
      total.toNat = ["m".toList, "a".toList, "b".toList].length :=
  (component_match_iff (by decide) ["m".toList, "x".toList]).mpr (by decide)

theorem deeper_path_throws : matchComponentsAt "/m/a".toList ["m".toList] = none := by decide

end GekkoFwd.Proofs.ComponentMatch
