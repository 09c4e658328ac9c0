import Mathlib.Logic.Basic

/-! Programs of a client that talks to servers by typed requests. A program posts a
batch of requests and goes on with the answers; a server that goes down leaves a
request without an answer. -/

namespace RpcProgram

inductive Program (ρ : Type → Type) (α : Type) : Type 1 where
  | pure (value : α)
  | abort
  | post {β : Type} (requests : List (Nat × ρ β)) (resume : List (Option β) → Program ρ α)

namespace Program
variable {ρ : Type → Type} {α β : Type}

def bind : Program ρ α → (α → Program ρ β) → Program ρ β
  | .pure value, next => next value
  | .abort, _ => .abort
  | .post requests resume, next => .post requests fun replies => (resume replies).bind next

instance : Monad (Program ρ) where
  pure := .pure
  bind := .bind

/-- One request to one host. -/
def call (host : Nat) (request : ρ β) : Program ρ (Option β) :=
  .post [(host, request)] fun replies => .pure (replies.headD none)

/-- A program in front of a batch of requests. -/
def waits : Program ρ α → Bool
  | .post _ _ => true
  | _ => false

@[simp] theorem pure_eq (value : α) : (Pure.pure value : Program ρ α) = .pure value := rfl

@[simp] theorem bind_eq (program : Program ρ α) (next : α → Program ρ β) : program >>= next = program.bind next := rfl

@[simp] theorem pure_bind (value : α) (next : α → Program ρ β) : (pure value).bind next = next value := rfl

@[simp] theorem abort_bind (next : α → Program ρ β) : (abort : Program ρ α).bind next = .abort := rfl

@[simp] theorem call_bind {γ : Type} (host : Nat) (request : ρ β) (next : Option β → Program ρ γ) :
    (call host request).bind next = .post [(host, request)] fun replies => next (replies.headD none) := rfl

end Program

/-- How the hosts answer a request and what it does to their common state. -/
structure Server (ρ : Type → Type) (σ : Type) where
  handle : {β : Type} → Nat → ρ β → σ → Option β × σ

namespace Server
variable {ρ : Type → Type} {σ : Type} {α β : Type} (server : Server ρ σ)

/-- The requests of a batch, handled in the order they were posted. -/
def handleAll : List (Nat × ρ β) → σ → List (Option β) × σ
  | [], state => ([], state)
  | (host, request) :: requests, state =>
    let answered := server.handle host request state
    let rest := handleAll requests answered.2
    (answered.1 :: rest.1, rest.2)

/-- What every request of a batch keeps is kept by the batch. -/
theorem handleAll_keeps (kept : σ → Prop) {requests : List (Nat × ρ β)}
    (keeps : ∀ posted ∈ requests, ∀ state, kept state → kept (server.handle posted.1 posted.2 state).2) {state : σ}
    (initial : kept state) : kept (server.handleAll requests state).2 := by
  induction requests generalizing state with
  | nil => exact initial
  | cons posted requests ih =>
    exact ih (fun other member => keeps other (List.mem_cons_of_mem _ member)) (keeps posted List.mem_cons_self state initial)

/-- Every reply was given to one of the requests, in some state. -/
theorem exists_of_mem_handleAll {requests : List (Nat × ρ β)} {state : σ} {reply : Option β}
    (member : reply ∈ (server.handleAll requests state).1) :
    ∃ posted ∈ requests, ∃ before, reply = (server.handle posted.1 posted.2 before).1 := by
  induction requests generalizing state with
  | nil => cases member
  | cons posted requests ih =>
    rcases List.mem_cons.mp member with rfl | later
    · exact ⟨posted, List.mem_cons_self, state, rfl⟩
    · obtain ⟨other, among, before, same⟩ := ih later
      exact ⟨other, List.mem_cons_of_mem _ among, before, same⟩

theorem length_handleAll (requests : List (Nat × ρ β)) (state : σ) : (server.handleAll requests state).1.length = requests.length := by
  induction requests generalizing state with
  | nil => rfl
  | cons posted requests ih => exact congrArg (· + 1) (ih _)

/-- Requests that only read are all answered from the same state. -/
theorem handleAll_reads {requests : List (Nat × ρ β)} {state : σ}
    (reads : ∀ posted ∈ requests, (server.handle posted.1 posted.2 state).2 = state) :
    server.handleAll requests state = (requests.map fun posted => (server.handle posted.1 posted.2 state).1, state) := by
  induction requests with
  | nil => rfl
  | cons posted requests ih =>
    simp only [handleAll, reads posted List.mem_cons_self, List.map_cons,
      ih fun other member => reads other (List.mem_cons_of_mem _ member)]

/-- A program that runs alone. -/
def exec : Program ρ α → σ → Option α × σ
  | .pure value, state => (some value, state)
  | .abort, state => (none, state)
  | .post requests resume, state =>
    let answered := server.handleAll requests state
    exec (resume answered.1) answered.2

@[simp] theorem exec_pure (value : α) (state : σ) : server.exec (.pure value) state = (some value, state) := rfl

@[simp] theorem exec_abort (state : σ) : server.exec (.abort : Program ρ α) state = (none, state) := rfl

theorem exec_post (requests : List (Nat × ρ β)) (resume : List (Option β) → Program ρ α) (state : σ) :
    server.exec (.post requests resume) state =
      server.exec (resume (server.handleAll requests state).1) (server.handleAll requests state).2 := rfl

@[simp] theorem exec_post_one (host : Nat) (request : ρ β) (resume : List (Option β) → Program ρ α) (state : σ) :
    server.exec (.post [(host, request)] resume) state =
      server.exec (resume [(server.handle host request state).1]) (server.handle host request state).2 := rfl

/-- Running one program after another. -/
theorem exec_bind (program : Program ρ α) (next : α → Program ρ β) (state : σ) :
    server.exec (program.bind next) state =
      match server.exec program state with
      | (some value, after) => server.exec (next value) after
      | (none, after) => (none, after) := by
  induction program generalizing state with
  | pure value => rfl
  | abort => rfl
  | post requests resume ih =>
    rw [Program.bind, exec_post, exec_post]
    exact ih _ _

/-- A program that returned a value has passed through the value of its first part. -/
theorem exec_bind_eq_some {program : Program ρ α} {next : α → Program ρ β} {state after : σ} {value : β}
    (ran : server.exec (program.bind next) state = (some value, after)) :
    ∃ first between, server.exec program state = (some first, between) ∧
      server.exec (next first) between = (some value, after) := by
  rw [exec_bind] at ran
  cases started : server.exec program state with
  | mk result between =>
    rw [started] at ran
    cases result with
    | none => cases ran
    | some first => exact ⟨first, between, rfl, ran⟩

/-- A program that ended without a value did so in its first part or after it. -/
theorem exec_bind_eq_none {program : Program ρ α} {next : α → Program ρ β} {state after : σ}
    (ran : server.exec (program.bind next) state = (none, after)) :
    server.exec program state = (none, after) ∨ ∃ first between, server.exec program state = (some first, between) ∧
      server.exec (next first) between = (none, after) := by
  rw [exec_bind] at ran
  cases started : server.exec program state with
  | mk result between =>
    rw [started] at ran
    cases result with
    | none =>
      cases ran
      exact .inl rfl
    | some first => exact .inr ⟨first, between, rfl, ran⟩

section Agreement
variable {server} {other : Server ρ σ} {good : σ → Prop}
  (back : ∀ {β : Type} (host : Nat) (request : ρ β) (state : σ), good (server.handle host request state).2 → good state)

include back in
theorem good_of_handleAll {requests : List (Nat × ρ β)} {state : σ} (last : good (server.handleAll requests state).2) : good state := by
  induction requests generalizing state with
  | nil => exact last
  | cons posted requests ih => exact back _ _ _ (ih last)

include back in
theorem good_of_exec {program : Program ρ α} {state : σ} (last : good (server.exec program state).2) : good state := by
  induction program generalizing state with
  | pure | abort => exact last
  | post requests resume ih => exact good_of_handleAll back (ih _ last)

variable (agrees : ∀ {β : Type} (host : Nat) (request : ρ β) (state : σ), good (server.handle host request state).2 →
  server.handle host request state = other.handle host request state)

include back agrees in
theorem handleAll_eq_of_good {requests : List (Nat × ρ β)} {state : σ} (last : good (server.handleAll requests state).2) :
    server.handleAll requests state = other.handleAll requests state := by
  induction requests generalizing state with
  | nil => rfl
  | cons posted requests ih =>
    have first := agrees posted.1 posted.2 state (good_of_handleAll back last)
    rw [handleAll, handleAll, ih last, first]

include back agrees in
/-- Two servers that agree on every step to a good state agree on the runs that end in one, if
no step leads from a bad state to a good one. -/
theorem exec_eq_of_good {program : Program ρ α} {state : σ} (last : good (server.exec program state).2) :
    server.exec program state = other.exec program state := by
  induction program generalizing state with
  | pure | abort => rfl
  | post requests resume ih =>
    have first := handleAll_eq_of_good back agrees (good_of_exec back last)
    rw [exec_post, ih _ last, exec_post, first]

end Agreement

/-- The next batch of a program reaches the hosts, and their answers the program. -/
def deliver : Program ρ α → σ → Program ρ α × σ
  | .post requests resume, state =>
    let answered := server.handleAll requests state
    (resume answered.1, answered.2)
  | done, state => (done, state)

/-- A program that runs alone has its batches delivered one after the other. -/
theorem exec_deliver (program : Program ρ α) (state : σ) :
    server.exec program state = server.exec (server.deliver program state).1 (server.deliver program state).2 := by
  cases program <;> rfl

theorem deliver_bind {program : Program ρ α} (waiting : program.waits = true) (next : α → Program ρ β) (state : σ) :
    server.deliver (program.bind next) state =
      ((server.deliver program state).1.bind next, (server.deliver program state).2) := by
  cases program with
  | pure | abort => cases waiting
  | post => rfl

end Server
end RpcProgram
