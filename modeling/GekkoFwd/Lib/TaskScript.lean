import Mathlib.Logic.Relation
import Mathlib.Data.Set.Insert
import Mathlib.Logic.Function.Basic

/-! A coordinator that starts tasks, waits for them and gives resources back, while a
pool runs the tasks in any order. A request to cancel a task only keeps it from being
started. -/

namespace TaskScript
variable {ρ : Type}

/-- What the coordinator does. -/
inductive Op (ρ : Type) where
  | spawn (task : Nat)
  | cancel (task : Nat)
  | await (task : Nat)
  | release (resource : ρ)

inductive Status where
  | absent
  | pending
  | running
  | finished
  deriving DecidableEq

/-- What is left of the script, the tasks, and which of them are to be cancelled. -/
structure State (ρ : Type) where
  script : List (Op ρ)
  status : Nat → Status
  cancelled : Nat → Bool

def State.initial (script : List (Op ρ)) : State ρ := ⟨script, fun _ => .absent, fun _ => false⟩

inductive Step : State ρ → State ρ → Prop
  | spawn {task script status cancelled} :
      Step ⟨.spawn task :: script, status, cancelled⟩ ⟨script, Function.update status task .pending, cancelled⟩
  | cancel {task script status cancelled} :
      Step ⟨.cancel task :: script, status, cancelled⟩ ⟨script, status, Function.update cancelled task true⟩
  | await {task script status cancelled} (done : status task = .finished) :
      Step ⟨.await task :: script, status, cancelled⟩ ⟨script, status, cancelled⟩
  | release {resource script status cancelled} : Step ⟨.release resource :: script, status, cancelled⟩ ⟨script, status, cancelled⟩
  | start {task script status cancelled} (waiting : status task = .pending) :
      Step ⟨script, status, cancelled⟩ ⟨script, Function.update status task .running, cancelled⟩
  | drop {task script status cancelled} (waiting : status task = .pending) (requested : cancelled task = true) :
      Step ⟨script, status, cancelled⟩ ⟨script, Function.update status task .finished, cancelled⟩
  | finish {task script status cancelled} (runs : status task = .running) :
      Step ⟨script, status, cancelled⟩ ⟨script, Function.update status task .finished, cancelled⟩

/-- The states of all runs of a script. -/
def Reachable (script : List (Op ρ)) : State ρ → Prop := Relation.ReflTransGen Step (.initial script)

def State.Active (state : State ρ) (task : Nat) : Prop := state.status task = .pending ∨ state.status task = .running

/-- A resource that is given back next is used by no task any more. -/
def State.Safe (uses : Nat → ρ → Prop) (state : State ρ) : Prop :=
  ∀ resource script, state.script = .release resource :: script → ∀ task, uses task resource → ¬state.Active task

/-- The tasks that the coordinator has started and not waited for. -/
def after : Set Nat → List (Op ρ) → Set Nat
  | open_, [] => open_
  | open_, .spawn task :: script => after (insert task open_) script
  | open_, .await task :: script => after (open_ \ {task}) script
  | open_, .cancel _ :: script | open_, .release _ :: script => after open_ script

/-- Every resource is given back after the coordinator has waited for its users. -/
def Ordered (uses : Nat → ρ → Prop) : Set Nat → List (Op ρ) → Prop
  | _, [] => True
  | open_, .spawn task :: script => Ordered uses (insert task open_) script
  | open_, .await task :: script => Ordered uses (open_ \ {task}) script
  | open_, .cancel _ :: script => Ordered uses open_ script
  | open_, .release resource :: script => (∀ task ∈ open_, ¬uses task resource) ∧ Ordered uses open_ script

/-- The coordinator only waits for tasks that it has started. -/
def Awaits : Set Nat → List (Op ρ) → Prop
  | _, [] => True
  | spawned, .spawn task :: script => Awaits (insert task spawned) script
  | spawned, .await task :: script => task ∈ spawned ∧ Awaits spawned script
  | spawned, .cancel _ :: script | spawned, .release _ :: script => Awaits spawned script

variable {uses : Nat → ρ → Prop} {open_ spawned : Set Nat} {script rest : List (Op ρ)} {state next : State ρ}

theorem ordered_append : Ordered uses open_ (script ++ rest) ↔ Ordered uses open_ script ∧ Ordered uses (after open_ script) rest := by
  induction script generalizing open_ with
  | nil => simp [Ordered, after]
  | cons op script ih => cases op <;> simp [Ordered, after, ih, and_assoc]

theorem after_append : after open_ (script ++ rest) = after (after open_ script) rest := by
  induction script generalizing open_ with
  | nil => rfl
  | cons op script ih => cases op <;> simp [after, ih]

theorem Awaits.mono {larger : Set Nat} (awaits : Awaits spawned script) (subset : spawned ⊆ larger) : Awaits larger script := by
  induction script generalizing spawned larger with
  | nil => trivial
  | cons op script ih =>
    cases op with
    | spawn task => exact ih awaits (Set.insert_subset_insert subset)
    | await task => exact ⟨subset awaits.1, ih awaits.2 subset⟩
    | cancel task | release resource => exact ih awaits subset

theorem Awaits.append (first : Awaits spawned script) (second : Awaits spawned rest) : Awaits spawned (script ++ rest) := by
  induction script generalizing spawned with
  | nil => exact second
  | cons op script ih =>
    cases op with
    | spawn task => exact ih first (second.mono (Set.subset_insert _ _))
    | await task => exact ⟨first.1, ih first.2 second⟩
    | cancel task | release resource => exact ih first second

/-- Every state of a run is one in which the rest of the script is in order. -/
def Follows (uses : Nat → ρ → Prop) (state : State ρ) : Prop :=
  ∃ open_, Ordered uses open_ state.script ∧ ∀ task, state.Active task → task ∈ open_

theorem Follows.safe (follows : Follows uses state) : state.Safe uses := by
  obtain ⟨open_, ordered, known⟩ := follows
  intro resource script head task used active
  rw [head] at ordered
  exact ordered.1 task (known task active) used

/-- A task that becomes active was so before, unless it is the one that changes. -/
theorem active_update {status : Nat → Status} {cancelled : Nat → Bool} {task changed : Nat} {value : Status}
    (active : State.Active ⟨script, Function.update status changed value, cancelled⟩ task) :
    task = changed ∨ State.Active ⟨script, status, cancelled⟩ task := by
  by_cases same : task = changed
  · exact .inl same
  · refine .inr ?_
    simp only [State.Active, Function.update_of_ne same] at active
    exact active

theorem Follows.step (follows : Follows uses state) (step : Step state next) : Follows uses next := by
  obtain ⟨open_, ordered, known⟩ := follows
  cases step with
  | spawn => exact ⟨_, ordered, fun task active => (active_update active).elim .inl fun before => .inr (known task before)⟩
  | cancel => exact ⟨open_, ordered, known⟩
  | @await awaited _ status _ done =>
    refine ⟨_, ordered, fun task active => ⟨known task active, ?_⟩⟩
    rintro rfl
    rcases active with pending | running
    · exact absurd (done.symm.trans pending) nofun
    · exact absurd (done.symm.trans running) nofun
  | release => exact ⟨open_, ordered.2, known⟩
  | start waiting =>
    refine ⟨open_, ordered, fun task active => ?_⟩
    rcases active_update active with rfl | before
    · exact known task (.inl waiting)
    · exact known task before
  | drop waiting requested =>
    refine ⟨open_, ordered, fun task active => ?_⟩
    rcases active_update active with rfl | before
    · exact known task (.inl waiting)
    · exact known task before
  | finish runs =>
    refine ⟨open_, ordered, fun task active => ?_⟩
    rcases active_update active with rfl | before
    · exact known task (.inr runs)
    · exact known task before

theorem safe_of_ordered (ordered : Ordered uses ∅ script) (reachable : Reachable script state) : state.Safe uses := by
  have follows : Follows uses state := by
    induction reachable with
    | refl => exact ⟨∅, ordered, fun task active => active.elim nofun nofun⟩
    | tail _ step follows => exact follows.step step
  exact follows.safe

/-- The pool takes a task only when the coordinator waits for it. -/
structure Lazy (open_ spawned : Set Nat) (status : Nat → Status) : Prop where
  waiting : ∀ task ∈ open_, status task = .pending
  done : ∀ task ∈ spawned, task ∉ open_ → status task = .finished

theorem Lazy.spawn {status : Nat → Status} (slow : Lazy open_ spawned status) (task : Nat) :
    Lazy (insert task open_) (insert task spawned) (Function.update status task .pending) := by
  refine ⟨fun other member => ?_, fun other member fresh => ?_⟩
  · by_cases same : other = task
    · rw [same, Function.update_self]
    · rw [Function.update_of_ne same]
      exact slow.waiting other (member.resolve_left same)
  · have different : other ≠ task := fun same => fresh (.inl same)
    rw [Function.update_of_ne different]
    exact slow.done other (member.resolve_left different) fun open_ => fresh (.inr open_)

theorem Lazy.finish {status : Nat → Status} (slow : Lazy open_ spawned status) (task : Nat) :
    Lazy (open_ \ {task}) spawned (Function.update status task .finished) := by
  refine ⟨fun other member => ?_, fun other member fresh => ?_⟩
  · rw [Function.update_of_ne member.2]
    exact slow.waiting other member.1
  · by_cases same : other = task
    · rw [same, Function.update_self]
    · rw [Function.update_of_ne same]
      exact slow.done other member fun open_ => fresh ⟨open_, same⟩

/-- The task that is waited for runs, and the coordinator goes on. -/
theorem Lazy.await {status : Nat → Status} {cancelled : Nat → Bool} (slow : Lazy open_ spawned status) {task : Nat}
    (begun : task ∈ spawned) :
    Relation.ReflTransGen Step (⟨.await task :: script, status, cancelled⟩ : State ρ)
      ⟨script, Function.update status task .finished, cancelled⟩ := by
  by_cases open_ : task ∈ open_
  · refine .head (.start (slow.waiting task open_)) (.head (.finish (Function.update_self task _ status)) ?_)
    rw [Function.update_idem]
    exact .single (.await (Function.update_self task _ status))
  · have done := slow.done task begun open_
    rw [← done, Function.update_eq_self]
    exact .single (.await done)

/-- Where a script is out of order, the lazy pool leads to a state that is not safe. -/
theorem exists_unsafe {status : Nat → Status} {cancelled : Nat → Bool} (awaits : Awaits spawned script)
    (disordered : ¬Ordered uses open_ script) (slow : Lazy open_ spawned status) :
    ∃ final, Relation.ReflTransGen Step ⟨script, status, cancelled⟩ final ∧ ¬final.Safe uses := by
  induction script generalizing open_ spawned status cancelled with
  | nil => exact absurd trivial disordered
  | cons op script ih =>
    cases op with
    | spawn task =>
      obtain ⟨final, reached, exposed⟩ := ih awaits disordered (slow.spawn task)
      exact ⟨final, .head .spawn reached, exposed⟩
    | cancel task =>
      obtain ⟨final, reached, exposed⟩ := ih awaits disordered slow
      exact ⟨final, .head .cancel reached, exposed⟩
    | await task =>
      obtain ⟨final, reached, exposed⟩ := ih awaits.2 disordered (slow.finish task)
      exact ⟨final, (slow.await awaits.1).trans reached, exposed⟩
    | release resource =>
      by_cases used : ∃ task ∈ open_, uses task resource
      · obtain ⟨task, member, uses⟩ := used
        exact ⟨_, .refl, fun safe => safe resource script rfl task uses (.inl (slow.waiting task member))⟩
      · have later : ¬Ordered uses open_ script := fun ordered =>
          disordered ⟨fun task member uses => used ⟨task, member, uses⟩, ordered⟩
        obtain ⟨final, reached, exposed⟩ := ih awaits later slow
        exact ⟨final, .head .release reached, exposed⟩

/-- All runs of a script are safe exactly when it is in order. -/
theorem safe_iff_ordered (awaits : Awaits ∅ script) :
    (∀ state, Reachable script state → state.Safe uses) ↔ Ordered uses ∅ script := by
  refine ⟨fun safe => ?_, fun ordered state => safe_of_ordered ordered⟩
  by_contra disordered
  obtain ⟨final, reachable, exposed⟩ := exists_unsafe awaits disordered ⟨nofun, nofun⟩
  exact exposed (safe final reachable)

end TaskScript
