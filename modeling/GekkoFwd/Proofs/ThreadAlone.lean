import Mathlib.Logic.Relation
import GekkoFwd.OpenFileThreads
import GekkoFwd.Proofs.FdAllocation

/-! A thread whose steps no other thread comes between does what the methods of the open file
map do in one piece. -/

namespace GekkoFwd.Proofs.ThreadAlone
open OpenFileMap OpenFileThreads OpenFileThreads.State

variable {ι φ : Type} [DecidableEq ι] {state : State ι φ} {i : ι}

/-- The methods in one piece. Nothing when the search for a free number never ends. -/
def sequential (map : OpenFileMap φ) : Call φ → Option (Result φ × OpenFileMap φ)
  | .get fd => some (.file (map.get fd), map)
  | .exist fd => some (.flag (map.exist fd), map)
  | .add file => (map.add file).map fun added => (.fd (.ok added.1), added.2)
  | .remove fd => some (.flag (map.remove fd).1, (map.remove fd).2)
  | .dup oldfd => (map.dup oldfd).map fun duplicated => (.fd duplicated.1, duplicated.2)
  | .dup2 oldfd newfd => some (.fd (map.dup2 oldfd newfd).1, (map.dup2 oldfd newfd).2)

/-- Steps of one thread only. -/
def Alone (i : ι) : State ι φ → State ι φ → Prop := Relation.ReflTransGen fun before after => after = before.next (.step i)

theorem Alone.step {after : State ι φ} (later : Alone i (state.next (.step i)) after) : Alone i state after := .head rfl later

/-- The thread has come to a phase, with the given map. -/
def place (state : State ι φ) (i : ι) (map : OpenFileMap φ) (phase : Phase φ) : State ι φ :=
  { state with map, phases := Function.update state.phases i phase }

theorem next_place {map : OpenFileMap φ} {phase : Phase φ} (free : state.available i = true) :
    (place state i map phase).next (.step i) = (place state i map phase).advance i phase := by
  have here : (place state i map phase).phases i = phase := Function.update_self ..
  have open' : (place state i map phase).available i = true := free
  rw [State.next, here, open', Bool.not_true, Bool.and_false, if_neg Bool.false_ne_true]

theorem go_place {map : OpenFileMap φ} {phase next : Phase φ} : (place state i map phase).go i next = place state i map next := by
  simp only [place, State.go, Function.update_idem]

theorem generate_place {map : OpenFileMap φ} {phase : Phase φ} {next : Int → Phase φ} :
    (place state i map phase).generate i next = place state i map.generateFdIdx.2 (next map.generateFdIdx.1) := by
  simp only [place, State.generate, State.go, Function.update_idem]

theorem finish_place {map : OpenFileMap φ} {phase : Phase φ} {call : Call φ} {result : Result φ} :
    (place state i map phase).finish i call result = (place state i map .idle).finish i call result := by
  simp only [place, State.finish, State.go, Function.update_idem]

/-- From the first number on: the look at the flag, and the rounds of the search. -/
theorem alone_search {taker : Taker φ} {fd : Int} {map searched : OpenFileMap φ} (free : state.available i = true)
    (ended : map.safeGenerateFdIdx = some (fd, searched)) :
    Alone i (place state i map.generateFdIdx.2 (.generated taker map.generateFdIdx.1)) (place state i searched (.inserting taker fd)) := by
  apply Alone.step
  rw [next_place free, State.advance, go_place]
  rw [safeGenerateFdIdx] at ended
  change Alone i (place state i map.generateFdIdx.2 (if map.generateFdIdx.2.fdValidationNeeded then _ else _)) _
  split at ended
  next needed =>
    rw [if_pos needed]
    have round : ∀ current : Int × OpenFileMap φ,
        Alone i (place state i map.generateFdIdx.2 (.searching taker map.generateFdIdx.1))
          (place state i current.2 (.searching taker current.1)) →
        current.2.exist current.1 = true →
        Alone i (place state i map.generateFdIdx.2 (.searching taker map.generateFdIdx.1))
          (place state i current.2.generateFdIdx.2 (.searching taker current.2.generateFdIdx.1)) := by
      intro current before taken
      refine before.trans (Alone.step ?_)
      rw [next_place free, State.advance, go_place]
      change Alone i (place state i current.2 (if current.2.exist current.1 then _ else _)) _
      rw [if_pos taken]
      apply Alone.step
      rw [next_place free, State.advance, generate_place]
      exact .refl
    obtain ⟨reached, stopped⟩ := WhileLoop.run_partial _ round .refl ended
    refine reached.trans (Alone.step ?_)
    rw [next_place free, State.advance, go_place]
    change Alone i (place state i searched (if searched.exist fd then _ else _)) _
    rw [stopped, if_neg Bool.false_ne_true]
    exact .refl
  next unchecked =>
    rw [if_neg unchecked, Option.some.inj ended]
    exact .refl

/-- The state after a call. -/
def answered (state : State ι φ) (i : ι) (map : OpenFileMap φ) (call : Call φ) (result : Result φ) : State ι φ :=
  (place state i map .idle).finish i call result

theorem finish_eq_answered {call : Call φ} {result : Result φ} : state.finish i call result = answered state i state.map call result := by
  simp only [answered, place, State.finish, State.go, Function.update_idem]

theorem alone_insert {taker : Taker φ} {fd : Int} {map : OpenFileMap φ} (free : state.available i = true) :
    Alone i (place state i map (.inserting taker fd)) (answered state i (map.insert fd taker.file) taker.call (.fd (.ok fd))) := by
  apply Alone.step
  rw [next_place free, State.advance]
  change Alone i ((place state i (map.insert fd taker.file) _).finish i taker.call (.fd (.ok fd))) _
  rw [finish_place]
  exact .refl

theorem removed_place {fd : Int} {rest : Option (Int × φ)} {map : OpenFileMap φ} {phase : Phase φ} :
    (place state i map phase).removed i fd rest =
      rest.elim (answered state i map (.remove fd) (.flag true)) fun moving => place state i map (.comparing moving.1 fd moving.2) := by
  cases rest with
  | none => exact finish_place
  | some => exact go_place

/-- The end of `remove`, from where the entry is erased. -/
theorem alone_erased {fd : Int} {rest : Option (Int × φ)} {map : OpenFileMap φ} (free : state.available i = true) :
    Alone i (place state i map (.erased fd rest))
      ((place state i { map with fdValidationNeeded := map.fdValidationNeeded && !map.files.keys.isEmpty } .idle).removed i fd rest) := by
  apply Alone.step
  rw [next_place free, State.advance]
  change Alone i (if map.fdValidationNeeded && map.files.keys.isEmpty then _ else _) _
  cases needed : map.fdValidationNeeded with
  | false =>
    have same : map = { map with fdValidationNeeded := false } := by rw [← needed]
    rw [Bool.false_and, if_neg Bool.false_ne_true, Bool.false_and, ← same, removed_place, removed_place]
    exact .refl
  | true =>
    cases empty : map.files.keys.isEmpty with
    | false =>
      have same : map = { map with fdValidationNeeded := true } := by rw [← needed]
      rw [Bool.and_false, if_neg Bool.false_ne_true, Bool.not_false, Bool.and_true, ← same, removed_place, removed_place]
      exact .refl
    | true =>
      rw [Bool.and_true, if_pos rfl, go_place]
      apply Alone.step
      rw [next_place free, State.advance]
      change Alone i ((place state i { map with fdValidationNeeded := false } _).removed i fd rest) _
      rw [removed_place, removed_place]
      exact .refl

/-- The end of `dup2`, from the look at the index on. -/
theorem alone_comparing {oldfd newfd : Int} {file : φ} {map flagged : OpenFileMap φ} (free : state.available i = true)
    (flags : flagged = ⟨map.files, map.fdIdx, map.fdValidationNeeded || decide (map.fdIdx < newfd ∧ newfd ≠ 0 ∧ newfd ≠ 1 ∧ newfd ≠ 2)⟩) :
    Alone i (place state i map (.comparing oldfd newfd file))
      (answered state i (flagged.insert newfd file) (.dup2 oldfd newfd) (.fd (.ok newfd))) := by
  have bind : ∀ map : OpenFileMap φ, Alone i (place state i map (.binding oldfd newfd file))
      (answered state i (map.insert newfd file) (.dup2 oldfd newfd) (.fd (.ok newfd))) := by
    intro map
    apply Alone.step
    rw [next_place free, State.advance]
    change Alone i ((place state i (map.insert newfd file) _).finish i _ _) _
    rw [finish_place]
    exact .refl
  apply Alone.step
  rw [next_place free, State.advance]
  change Alone i (if map.fdIdx < newfd ∧ newfd ≠ 0 ∧ newfd ≠ 1 ∧ newfd ≠ 2 then _ else _) _
  split
  next ahead =>
    rw [decide_eq_true ahead, Bool.or_true] at flags
    rw [go_place]
    apply Alone.step
    rw [next_place free, State.advance]
    change Alone i ((place state i { map with fdValidationNeeded := true } _).go i _) _
    rw [go_place, ← flags]
    exact bind flagged
  next behind =>
    rw [decide_eq_false behind, Bool.or_false] at flags
    rw [go_place, flags]
    exact bind map

section Calls
variable {fd : Int} {file : φ}

/-- From the first generated number to the end of an `add` or a `dup`. -/
theorem alone_taker {taker : Taker φ} {map after : OpenFileMap φ} (free : state.available i = true)
    (added : map.add taker.file = some (fd, after)) :
    Alone i (place state i map.generateFdIdx.2 (.generated taker map.generateFdIdx.1))
      (answered state i after taker.call (.fd (.ok fd))) := by
  obtain ⟨⟨found, searched⟩, ended, same⟩ := Option.map_eq_some_iff.mp added
  cases same
  exact (alone_search free ended).trans (alone_insert free)

/-- Where a thread has taken the lock. -/
def owned (state : State ι φ) (i : ι) : State ι φ := { state with filesMutex := some i }

theorem available_owned : (owned state i).available i = true := by
  simp [owned, State.available]

theorem enter_dup {oldfd : Int} {result : Except Int Int} {after : OpenFileMap φ} (ran : state.map.dup oldfd = some (result, after)) :
    Alone i (state.enter i (.dup oldfd)) (answered state i after (.dup oldfd) (.fd result)) := by
  cases bound : state.map.get oldfd with
  | none =>
    rw [OpenFileMap.dup, bound] at ran
    cases ran
    simp only [State.enter, bound, finish_eq_answered]
    exact .refl
  | some file =>
    rw [FdAllocation.dup_eq_add bound] at ran
    obtain ⟨⟨fd, _⟩, added, same⟩ := Option.map_eq_some_iff.mp ran
    cases same
    simp only [State.enter, bound]
    change Alone i (place (owned state i) i state.map (.allocating ⟨some oldfd, file⟩)) (answered (owned state i) i _ _ _)
    apply Alone.step
    rw [next_place available_owned, State.advance, generate_place]
    exact @alone_taker _ _ _ (owned state i) i _ ⟨some oldfd, file⟩ _ _ available_owned added

theorem enter_remove : Alone i (state.enter i (.remove fd))
    (answered state i (state.map.remove fd).2 (.remove fd) (.flag (state.map.remove fd).1)) := by
  rw [State.enter, OpenFileMap.remove]
  split
  next =>
    have erased := @alone_erased _ _ _ (owned state i) i fd none (state.erase fd).map available_owned
    rw [removed_place] at erased
    exact erased
  next =>
    rw [finish_eq_answered]
    exact .refl

theorem enter_dup2 {oldfd newfd : Int} : Alone i (state.enter i (.dup2 oldfd newfd))
    (answered state i (state.map.dup2 oldfd newfd).2 (.dup2 oldfd newfd) (.fd (state.map.dup2 oldfd newfd).1)) := by
  cases bound : state.map.get oldfd with
  | none =>
    simp only [State.enter, OpenFileMap.dup2, bound, finish_eq_answered]
    exact .refl
  | some file =>
    simp only [State.enter, OpenFileMap.dup2, bound]
    split
    next =>
      rw [finish_eq_answered]
      exact .refl
    next =>
      by_cases taken : state.map.exist newfd = true
      · rw [if_pos taken, if_pos taken, OpenFileMap.remove, if_pos taken]
        have erased := @alone_erased _ _ _ (owned state i) i newfd (some (oldfd, file)) (state.erase newfd).map available_owned
        rw [removed_place] at erased
        exact erased.trans (alone_comparing available_owned rfl)
      · rw [if_neg taken, if_neg taken]
        exact @alone_comparing _ _ _ (owned state i) i _ _ _ state.map _ available_owned rfl

end Calls

/-- A call that no other comes between returns what the method returns, and leaves the map as
the method leaves it. -/
theorem alone_of_sequential {call : Call φ} {result : Result φ} {after : OpenFileMap φ} (free : state.filesMutex = none)
    (here : state.phases i = .called call) (ran : sequential state.map call = some (result, after)) :
    Alone i state (answered state i after call result) := by
  have unowned : state.available i = true := by
    rw [State.available, free]
    rfl
  have entered : state.next (.step i) = state.enter i call := by
    rw [State.next, here, unowned, Bool.not_true, Bool.and_false, if_neg Bool.false_ne_true, State.advance]
  apply Alone.step
  rw [entered]
  cases call with
  | get fd | exist fd =>
    cases ran
    rw [State.enter, finish_eq_answered]
    exact .refl
  | add file =>
    obtain ⟨⟨fd, _⟩, added, same⟩ := Option.map_eq_some_iff.mp ran
    cases same
    exact @alone_taker _ _ _ state i fd ⟨none, file⟩ _ _ unowned added
  | remove fd =>
    cases ran
    exact enter_remove
  | dup oldfd =>
    obtain ⟨⟨_, _⟩, duplicated, same⟩ := Option.map_eq_some_iff.mp ran
    cases same
    exact enter_dup duplicated
  | dup2 oldfd newfd =>
    cases ran
    exact enter_dup2

end GekkoFwd.Proofs.ThreadAlone
