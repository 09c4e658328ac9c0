import Mathlib.Logic.Function.Iterate

/-! Execution of a `while` loop. A loop that never ends has no final state. -/

namespace WhileLoop

variable {σ : Type*}

/-- `while (guard s) s = body s`. -/
structure Loop (σ : Type*) where
  guard : σ → Bool
  body : σ → σ

def Loop.run (loop : Loop σ) (state : σ) : Option σ :=
  if loop.guard state then loop |>.run (loop.body state) else some state
partial_fixpoint

def run (guard : σ → Bool) (body : σ → σ) (state : σ) : Option σ := Loop.run ⟨guard, body⟩ state

variable {guard : σ → Bool} {body : σ → σ}

theorem run_stop {state : σ} (stop : guard state = false) : run guard body state = some state := by
  rw [run, Loop.run, if_neg (by simp [stop])]

theorem run_step {state : σ} (go : guard state = true) : run guard body state = run guard body (body state) := by
  rw [run, Loop.run, if_pos go]
  rfl

/-- Total correctness: rounds that keep an invariant and lower a measure lead out
of the loop with the invariant. -/
theorem run_total {state : σ} (invariant : σ → Prop) (measure : σ → Nat)
    (keeps : ∀ current, invariant current → guard current = true →
      invariant (body current) ∧ measure (body current) < measure current)
    (initial : invariant state) :
    ∃ final, run guard body state = some final ∧ invariant final ∧ guard final = false := by
  induction bound : measure state using Nat.strongRecOn generalizing state with
  | _ bound ih =>
    cases holds : guard state with
    | true =>
      obtain ⟨kept, lower⟩ := keeps state initial holds
      rw [run_step holds]
      exact ih _ (by omega) kept rfl
    | false => exact ⟨state, run_stop holds, initial, holds⟩

/-- Partial correctness: a loop that ends has kept what every round keeps. -/
theorem run_partial {state final : σ} (invariant : σ → Prop)
    (keeps : ∀ current, invariant current → guard current = true → invariant (body current)) (initial : invariant state)
    (ended : run guard body state = some final) : invariant final ∧ guard final = false := by
  refine Loop.run.partial_correctness ⟨guard, body⟩ (fun state final => invariant state → invariant final ∧ guard final = false)
    ?_ state final ended initial
  intro later ih state final ended initial
  split at ended
  next go => exact ih _ _ ended (keeps state initial go)
  next stop =>
    cases ended
    exact ⟨initial, Bool.eq_false_iff.mpr stop⟩

/-- A loop whose guard holds after every round never ends. -/
theorem run_diverges {state : σ} (go : ∀ round, guard (body^[round] state) = true) : run guard body state = none := by
  cases ended : run guard body state with
  | none => rfl
  | some final =>
    refine absurd go (Loop.run.partial_correctness ⟨guard, body⟩ (fun state _ => ¬∀ round, guard (body^[round] state) = true)
      ?_ state final ended)
    intro later ih state final ended go
    rw [if_pos (show guard state = true from go 0)] at ended
    exact ih _ _ ended fun round => go (round + 1)

/-- A loop that is left after at most `bound` rounds. -/
def EndsWithin (guard : σ → Bool) (body : σ → σ) (state : σ) (bound : Nat) : Prop :=
  ∃ rounds ≤ bound, guard (body^[rounds] state) = false

theorem EndsWithin.run {state : σ} {bound : Nat} (ends : EndsWithin guard body state bound) :
    ∃ final, run guard body state = some final := by
  obtain ⟨rounds, -, stop⟩ := ends
  induction rounds generalizing state with
  | zero => exact ⟨state, run_stop stop⟩
  | succ rounds ih =>
    cases holds : guard state with
    | false => exact ⟨state, run_stop holds⟩
    | true =>
      rw [run_step holds]
      exact ih stop

end WhileLoop
