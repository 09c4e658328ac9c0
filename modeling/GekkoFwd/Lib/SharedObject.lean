/-! An object that several threads use at the same time. What they can see of it is which
calls return what, and in which order. The object is as good as one that handles a call at
a time if the calls, in the order in which they return, are a history of such an object. -/

namespace SharedObject
variable {τ κ ρ σ ε : Type}

/-- Calls and answers that lead an object to a state when one call is handled after the other. -/
inductive History (effect : τ → κ → ρ → τ → Prop) (initial : τ) : List (κ × ρ) → τ → Prop where
  | nil : History effect initial [] initial
  | snoc {calls : List (κ × ρ)} {before after : τ} {call : κ} {answer : ρ} (earlier : History effect initial calls before)
      (last : effect before call answer after) : History effect initial (calls ++ [(call, answer)]) after

/-- Every step of a run is admitted in the state where it is made. -/
def Admits (next : σ → ε → σ) (admitted : σ → ε → Prop) : List ε → σ → Prop
  | [], _ => True
  | event :: events, state => admitted state event ∧ Admits next admitted events (next state event)

instance decidableAdmits (next : σ → ε → σ) (admitted : σ → ε → Prop) [∀ state event, Decidable (admitted state event)] :
    (events : List ε) → (state : σ) → Decidable (Admits next admitted events state)
  | [], _ => isTrue trivial
  | event :: events, state => @instDecidableAnd _ _ _ (decidableAdmits next admitted events (next state event))

section Runs
variable {effect : τ → κ → ρ → τ → Prop} {next : σ → ε → σ} {admitted : σ → ε → Prop} {returned : σ → List (κ × ρ)}
  {shows : σ → τ → Prop}

/-- A step returns nothing and leaves what the threads can see as it is, or it returns one
call and has the effect of that call. -/
def Returns (effect : τ → κ → ρ → τ → Prop) (returned : σ → List (κ × ρ)) (shows : σ → τ → Prop) (state after : σ) (seen : τ) : Prop :=
  (returned after = returned state ∧ shows after seen) ∨
    ∃ call answer later, returned after = returned state ++ [(call, answer)] ∧ effect seen call answer later ∧ shows after later

/-- When every admitted step does so, every admitted run returns a history. -/
theorem history_run {initial seen : τ} {state : σ} {events : List ε}
    (step : ∀ state event seen, admitted state event → shows state seen → Returns effect returned shows state (next state event) seen)
    (history : History effect initial (returned state) seen) (shown : shows state seen) (admits : Admits next admitted events state) :
    ∃ later, History effect initial (returned (events.foldl next state)) later ∧ shows (events.foldl next state) later := by
  induction events generalizing state seen with
  | nil => exact ⟨seen, history, shown⟩
  | cons event events ih =>
    rcases step state event seen admits.1 shown with ⟨same, still⟩ | ⟨call, answer, later, one, effects, now⟩
    · apply ih _ still admits.2
      rw [same]
      exact history
    · apply ih _ now admits.2
      rw [one]
      exact history.snoc effects

end Runs
end SharedObject
