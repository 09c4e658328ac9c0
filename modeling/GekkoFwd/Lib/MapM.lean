import Mathlib.Data.List.Basic

/-! Effectful maps over a list whose steps all return. -/

namespace MapM

theorem mapM_eq_pure_map {m : Type → Type} [Monad m] [LawfulMonad m] {α β : Type} {f : α → m β} {g : α → β} {values : List α}
    (each : ∀ value ∈ values, f value = pure (g value)) : values.mapM f = pure (values.map g) := by
  induction values with
  | nil => rfl
  | cons value values ih =>
    rw [List.mapM_cons, each value List.mem_cons_self, pure_bind, ih fun other member => each other (List.mem_cons_of_mem _ member),
      pure_bind]
    rfl

theorem mem_of_mapM_eq_some {α β : Type} {f : α → Option β} {values : List α} {results : List β} (returned : values.mapM f = some results)
    {value : α} (member : value ∈ values) : ∃ result ∈ results, f value = some result := by
  induction values generalizing results with
  | nil => cases member
  | cons first values ih =>
    simp only [List.mapM_cons, Option.bind_eq_bind, Option.bind_eq_some_iff, Option.pure_def, Option.some.injEq] at returned
    obtain ⟨result, here, rest, returned, rfl⟩ := returned
    cases member with
    | head => exact ⟨result, List.mem_cons_self, here⟩
    | tail _ member =>
      obtain ⟨result, among, there⟩ := ih returned member
      exact ⟨result, List.mem_cons_of_mem _ among, there⟩

theorem length_of_mapM_eq_some {α β : Type} {f : α → Option β} {values : List α} {results : List β}
    (returned : values.mapM f = some results) : results.length = values.length := by
  induction values generalizing results with
  | nil =>
    cases returned
    rfl
  | cons first values ih =>
    simp only [List.mapM_cons, Option.bind_eq_bind, Option.bind_eq_some_iff, Option.pure_def, Option.some.injEq] at returned
    obtain ⟨_, _, rest, returned, rfl⟩ := returned
    rw [List.length_cons, List.length_cons, ih returned]

theorem exists_of_mapM_eq_some {α β : Type} {f : α → Option β} {values : List α} {results : List β}
    (returned : values.mapM f = some results) {result : β} (member : result ∈ results) : ∃ value ∈ values, f value = some result := by
  induction values generalizing results with
  | nil =>
    cases returned
    cases member
  | cons first values ih =>
    simp only [List.mapM_cons, Option.bind_eq_bind, Option.bind_eq_some_iff, Option.pure_def, Option.some.injEq] at returned
    obtain ⟨head, here, rest, returned, rfl⟩ := returned
    rcases List.mem_cons.mp member with rfl | later
    · exact ⟨first, List.mem_cons_self, here⟩
    · obtain ⟨value, among, there⟩ := ih returned later
      exact ⟨value, List.mem_cons_of_mem _ among, there⟩

end MapM
