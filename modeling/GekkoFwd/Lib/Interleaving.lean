import Mathlib.Data.List.Forall2
import Mathlib.Data.List.Induction
import Mathlib.Logic.Function.Basic
import GekkoFwd.Lib.RpcProgram

/-! Programs that run at the same time against the same hosts. Each request arrives on its
own, in any order among those that wait, and the common state may change between two
arrivals. Programs that keep to separate parts of the state do not notice each other. -/

namespace RpcProgram

variable {ρ : Type → Type} {σ : Type} {α β : Type}

/-- Every request that the program may post, whatever the answers, has the property with the
host it goes to. -/
def Posts (own : ∀ β, Nat → ρ β → Prop) : Program ρ α → Prop
  | .pure _ => True
  | .abort => True
  | .post requests resume => (∀ posted ∈ requests, own _ posted.1 posted.2) ∧ ∀ replies, Posts own (resume replies)

/-- What the program may return, whatever the answers, has the property. -/
def Yields (kept : α → Prop) : Program ρ α → Prop
  | .pure value => kept value
  | .abort => True
  | .post _ resume => ∀ replies, Yields kept (resume replies)

/-- The program returns, whatever answers of this kind it gets, and what it returns has the
property. -/
def Always (answers : ∀ β, Nat → ρ β → Option β → Prop) (kept : α → Prop) : Program ρ α → Prop
  | .pure value => kept value
  | .abort => False
  | .post requests resume => ∀ replies, List.Forall₂ (fun posted reply => answers _ posted.1 posted.2 reply) requests replies →
      Always answers kept (resume replies)

section Rules
variable {own : ∀ β, Nat → ρ β → Prop} {kept : α → Prop} {program : Program ρ α}

theorem yields_true (program : Program ρ α) : Yields (fun _ => True) program := by
  induction program with
  | pure | abort => trivial
  | post requests resume ih => exact ih

theorem Yields.bind {last : β → Prop} {next : α → Program ρ β} (first : Yields kept program)
    (later : ∀ value, kept value → Yields last (next value)) : Yields last (program.bind next) := by
  induction program with
  | pure value => exact later value first
  | abort => trivial
  | post requests resume ih => exact fun replies => ih replies (first replies)

theorem Posts.bind_of_yields {next : α → Program ρ β} (first : Posts own program) (yields : Yields kept program)
    (later : ∀ value, kept value → Posts own (next value)) : Posts own (program.bind next) := by
  induction program with
  | pure value => exact later value yields
  | abort => trivial
  | post requests resume ih => exact ⟨first.1, fun replies => ih replies (first.2 replies) (yields replies)⟩

theorem Posts.bind {next : α → Program ρ β} (first : Posts own program) (later : ∀ value, Posts own (next value)) :
    Posts own (program.bind next) :=
  first.bind_of_yields (yields_true program) fun value _ => later value

theorem posts_call {host : Nat} {request : ρ β} (owned : own _ host request) : Posts own (Program.call host request) := by
  refine ⟨fun posted member => ?_, fun _ => trivial⟩
  rw [List.mem_singleton.mp member]
  exact owned

/-- What every request of this kind keeps is kept by a program that runs alone. -/
theorem Posts.exec_keeps {server : Server ρ σ} {valid : σ → Prop}
    (handled : ∀ {β} (host : Nat) {request : ρ β}, own _ host request → ∀ {state}, valid state → valid (server.handle host request state).2)
    (posts : Posts own program) {state : σ} (initial : valid state) : valid (server.exec program state).2 := by
  induction program generalizing state with
  | pure | abort => exact initial
  | post requests resume ih =>
    refine ih _ (posts.2 _) (server.handleAll_keeps valid (fun posted member state before => ?_) initial)
    exact handled _ (posts.1 posted member) before

variable {answers : ∀ β, Nat → ρ β → Option β → Prop}

theorem Always.bind {last : β → Prop} {next : α → Program ρ β} (first : Always answers kept program)
    (later : ∀ value, kept value → Always answers last (next value)) : Always answers last (program.bind next) := by
  induction program with
  | pure value => exact later value first
  | abort => exact first.elim
  | post requests resume ih => exact fun replies each => ih replies (first replies each)

theorem always_call {host : Nat} {request : ρ β} {next : Option β → Program ρ α}
    (each : ∀ reply, answers _ host request reply → Always answers kept (next reply)) :
    Always answers kept ((Program.call host request).bind next) := by
  intro replies answered
  cases answered with
  | cons here rest =>
    cases rest
    exact each _ here

end Rules

/-- One of the waiting requests is handled, and its answer kept at its place. A program all
of whose requests have been answered goes on. -/
def Server.advance (server : Server ρ σ) : Program ρ α → (index : Nat) → σ → Program ρ α × σ
  | .post [] resume, _, state => (resume [], state)
  | .post (first :: requests) resume, index, state =>
    match (first :: requests)[index]? with
    | none => (.post (first :: requests) resume, state)
    | some (host, request) =>
      let answered := server.handle host request state
      (.post ((first :: requests).eraseIdx index) fun replies => resume (replies.insertIdx index answered.1), answered.2)
  | done, _, state => (done, state)

section Advance
variable (server : Server ρ σ) {own : ∀ β, Nat → ρ β → Prop} {program : Program ρ α}

theorem Posts.advance (posts : Posts own program) (index : Nat) (state : σ) : Posts own (server.advance program index state).1 := by
  cases program with
  | pure | abort => exact posts
  | post requests resume =>
    cases requests with
    | nil => exact posts.2 []
    | cons first requests =>
      rw [Server.advance]
      split
      next => exact posts
      next => exact ⟨fun posted member => posts.1 posted (List.mem_of_mem_eraseIdx member), fun replies => posts.2 _⟩

omit server in
/-- What a step of a program does is what the handling of one of its requests does. -/
theorem advance_cases (posts : Posts own program) (index : Nat) :
    (∃ next, ∀ (server : Server ρ σ) state, server.advance program index state = (next, state)) ∨
      ∃ (β : Type) (host : Nat) (request : ρ β) (next : Option β → Program ρ α), own _ host request ∧
        ∀ (server : Server ρ σ) state, server.advance program index state =
          (next (server.handle host request state).1, (server.handle host request state).2) := by
  cases program with
  | pure | abort => exact .inl ⟨_, fun _ _ => rfl⟩
  | post requests resume =>
    cases requests with
    | nil => exact .inl ⟨_, fun _ _ => rfl⟩
    | cons first requests =>
      cases found : (first :: requests)[index]? with
      | none =>
        refine .inl ⟨.post (first :: requests) resume, fun server state => ?_⟩
        simp only [Server.advance, found]
      | some posted =>
        refine .inr ⟨_, posted.1, posted.2, fun reply => .post ((first :: requests).eraseIdx index) fun replies =>
          resume (replies.insertIdx index reply), posts.1 posted (List.mem_of_getElem? found), fun server state => ?_⟩
        simp only [Server.advance, found]

private theorem forall₂_insertIdx {γ δ : Type*} {related : γ → δ → Prop} {items : List γ} {values : List δ} {index : Nat} {item : γ}
    {value : δ}
    (found : items[index]? = some item) (here : related item value) (rest : List.Forall₂ related (items.eraseIdx index) values) :
    List.Forall₂ related items (values.insertIdx index value) := by
  induction index generalizing items values with
  | zero =>
    cases items with
    | nil => cases found
    | cons first items =>
      cases found
      exact .cons here rest
  | succ index ih =>
    cases items with
    | nil => cases found
    | cons first items =>
      cases rest with
      | cons holds rest => exact .cons holds (ih found rest)

/-- An answer of the right kind leaves the program as it is. -/
theorem Always.advance {answers : ∀ β, Nat → ρ β → Option β → Prop} {kept : α → Prop} (always : Always answers kept program) {state : σ}
    (answered : ∀ β host (request : ρ β), answers β host request (server.handle host request state).1) (index : Nat) :
    Always answers kept (server.advance program index state).1 := by
  cases program with
  | pure | abort => exact always
  | post requests resume =>
    cases requests with
    | nil => exact always [] .nil
    | cons first requests =>
      rw [Server.advance]
      split
      next => exact always
      next host request found => exact fun replies rest => always _ (forall₂_insertIdx found (answered _ host request) rest)

/-- Requests that arrive in the order they were posted make a run of the program alone. -/
theorem exec_advance (program : Program ρ α) (state : σ) :
    server.exec program state = server.exec (server.advance program 0 state).1 (server.advance program 0 state).2 := by
  cases program with
  | pure | abort => rfl
  | post requests resume => cases requests <;> rfl

end Advance

/-- A request of one of the clients arrives, or the state changes by itself. -/
inductive Event (ι ε : Type) where
  | arrive (client : ι) (index : Nat)
  | environment (event : ε)

variable {ι ε V : Type} {α : ι → Type}

/-- The programs of all clients, as far as they have come, and the common state. -/
structure Clients (ρ : Type → Type) (σ : Type) (α : ι → Type) : Type 1 where
  programs : (i : ι) → Program ρ (α i)
  state : σ

section Runs
variable [DecidableEq ι] (server : ι → Server ρ σ) (environment : ε → σ → σ)

def step (clients : Clients ρ σ α) : Event ι ε → Clients ρ σ α
  | .arrive i index =>
    let advanced := (server i).advance (clients.programs i) index clients.state
    ⟨Function.update clients.programs i advanced.1, advanced.2⟩
  | .environment event => ⟨clients.programs, environment event clients.state⟩

def run (events : List (Event ι ε)) (clients : Clients ρ σ α) : Clients ρ σ α := events.foldl (step server environment) clients

/-- The states that a run goes through. -/
def visited : List (Event ι ε) → Clients ρ σ α → List σ
  | [], clients => [clients.state]
  | event :: events, clients => clients.state :: visited events (step server environment clients event)

/-- The schedule without the requests of the other clients. -/
def purge (i : ι) (events : List (Event ι ε)) : List (Event ι ε) :=
  events.filter fun event =>
    match event with
    | .arrive client _ => decide (client = i)
    | .environment _ => true

theorem purge_concat_environment (i : ι) (events : List (Event ι ε)) (event : ε) :
    purge i (events ++ [.environment event]) = purge i events ++ [.environment event] := List.filter_append ..

theorem purge_concat_arrive (i client : ι) (events : List (Event ι ε)) (index : Nat) :
    purge i (events ++ [.arrive client index]) = if client = i then purge i events ++ [.arrive client index] else purge i events := by
  rw [purge, List.filter_append]
  by_cases same : client = i <;> simp [same, purge]

/-- A schedule that has only the requests of one client, in the order they were posted, runs
its program. -/
theorem exec_run {i : ι} {events : List (Event ι ε)} (alone : ∀ event ∈ events, event = .arrive i 0) (clients : Clients ρ σ α) :
    (server i).exec (clients.programs i) clients.state =
      (server i).exec ((run server environment events clients).programs i) (run server environment events clients).state := by
  induction events generalizing clients with
  | nil => rfl
  | cons event events ih =>
    obtain rfl := alone event List.mem_cons_self
    have rest := ih (fun other member => alone other (List.mem_cons_of_mem _ member)) (step server environment clients (.arrive i 0))
    simp only [step, Function.update_self] at rest
    rw [exec_advance, rest]
    rfl

/-- What a client sees of the state decides the answers to its own requests and what it sees
afterwards. The requests of others do not change it. -/
structure Separated (own : ι → ∀ β, Nat → ρ β → Prop) (view : ι → σ → V) : Prop where
  locality : ∀ {i β} (host : Nat) {request : ρ β}, own i _ host request → ∀ {state other}, view i state = view i other →
    ((server i).handle host request state).1 = ((server i).handle host request other).1 ∧
      view i ((server i).handle host request state).2 = view i ((server i).handle host request other).2
  frame : ∀ {i j β} (host : Nat) {request : ρ β}, own i _ host request → j ≠ i → ∀ state,
    view j ((server i).handle host request state).2 = view j state
  outside : ∀ {i} event {state other}, view i state = view i other → view i (environment event state) = view i (environment event other)

/-- To a client two runs look the same. -/
def Agree (view : ι → σ → V) (i : ι) (clients others : Clients ρ σ α) : Prop :=
  clients.programs i = others.programs i ∧ view i clients.state = view i others.state

variable {server environment} {own : ι → ∀ β, Nat → ρ β → Prop} {view : ι → σ → V} {clients others : Clients ρ σ α} {i : ι}

theorem posts_step (posts : ∀ i, Posts (own i) (clients.programs i)) (event : Event ι ε) (i : ι) :
    Posts (own i) ((step server environment clients event).programs i) := by
  cases event with
  | environment => exact posts i
  | arrive client index =>
    by_cases same : i = client
    · subst same
      simp only [step, Function.update_self]
      exact (posts i).advance _ _ _
    · simp only [step, Function.update_of_ne same]
      exact posts i

theorem posts_run (posts : ∀ i, Posts (own i) (clients.programs i)) (events : List (Event ι ε)) (i : ι) :
    Posts (own i) ((run server environment events clients).programs i) := by
  induction events generalizing clients with
  | nil => exact posts i
  | cons event events ih => exact ih (posts_step posts event)

theorem run_concat (events : List (Event ι ε)) (event : Event ι ε) (clients : Clients ρ σ α) :
    run server environment (events ++ [event]) clients = step server environment (run server environment events clients) event :=
  List.foldl_concat ..

theorem mem_visited (events : List (Event ι ε)) (clients : Clients ρ σ α) :
    (run server environment events clients).state ∈ visited server environment events clients := by
  induction events generalizing clients with
  | nil => exact List.mem_singleton_self _
  | cons event events ih => exact List.mem_cons_of_mem _ (ih _)

/-- What every request and every change of the environment keeps holds in all states of a run. -/
theorem visited_keep {valid : σ → Prop} (handled : ∀ {i β} (host : Nat) {request : ρ β}, own i _ host request → ∀ {state}, valid state →
      valid ((server i).handle host request state).2)
    (changed : ∀ event {state}, valid state → valid (environment event state)) (posts : ∀ i, Posts (own i) (clients.programs i))
    (initial : valid clients.state) (events : List (Event ι ε)) : ∀ state ∈ visited server environment events clients, valid state := by
  induction events generalizing clients with
  | nil =>
    intro state member
    rw [List.mem_singleton.mp member]
    exact initial
  | cons event events ih =>
    have next : valid (step server environment clients event).state := by
      cases event with
      | environment event => exact changed event initial
      | arrive client index =>
        rcases @advance_cases _ σ _ _ _ (posts client) index with ⟨_, unchanged⟩ | ⟨β, host, request, next, owned, answered⟩
        · simp only [step, unchanged]
          exact initial
        · simp only [step, answered]
          exact handled host owned initial
    intro state member
    rcases List.mem_cons.mp member with rfl | later
    · exact initial
    · exact ih (@posts_step _ _ _ _ _ _ server environment own clients posts event) next state later

/-- The same for a schedule that has requests of one client only. -/
theorem visited_keep_alone {valid : σ → Prop} (handled : ∀ {β} (host : Nat) {request : ρ β}, own i _ host request → ∀ {state}, valid state →
      valid ((server i).handle host request state).2)
    (posts : Posts (own i) (clients.programs i)) (initial : valid clients.state) {events : List (Event ι ε)}
    (alone : ∀ event ∈ events, ∃ index, event = .arrive i index) : ∀ state ∈ visited server environment events clients, valid state := by
  induction events generalizing clients with
  | nil =>
    intro state member
    rw [List.mem_singleton.mp member]
    exact initial
  | cons event events ih =>
    obtain ⟨index, rfl⟩ := alone event List.mem_cons_self
    have next : valid ((server i).advance (clients.programs i) index clients.state).2 := by
      rcases @advance_cases _ σ _ _ _ posts index with ⟨_, unchanged⟩ | ⟨β, host, request, next, owned, answered⟩
      · rw [unchanged]
        exact initial
      · rw [answered]
        exact handled host owned initial
    intro state member
    rcases List.mem_cons.mp member with rfl | later
    · exact initial
    · refine ih ?_ next (fun other among => alone other (List.mem_cons_of_mem _ among)) state later
      simp only [step, Function.update_self]
      exact posts.advance _ _ _

/-- A client whose requests all arrive comes to an end. -/
theorem exists_finished (program : Program ρ (α i)) (clients : Clients ρ σ α) (here : clients.programs i = program) :
    ∃ count, (∃ value, (run server environment (List.replicate count (.arrive i 0)) clients).programs i = .pure value) ∨
      (run server environment (List.replicate count (.arrive i 0)) clients).programs i = .abort := by
  have later : ∀ {clients : Clients ρ σ α}, (∃ count,
        (∃ value, (run server environment (List.replicate count (.arrive i 0)) (step server environment clients (.arrive i 0))).programs
          i = .pure value) ∨
          (run server environment (List.replicate count (.arrive i 0)) (step server environment clients (.arrive i 0))).programs i =
            .abort) →
      ∃ count, (∃ value, (run server environment (List.replicate count (.arrive i 0)) clients).programs i = .pure value) ∨
        (run server environment (List.replicate count (.arrive i 0)) clients).programs i = .abort := by
    rintro clients ⟨count, finished⟩
    exact ⟨count + 1, finished⟩
  induction program generalizing clients with
  | pure value => exact ⟨0, .inl ⟨value, here⟩⟩
  | abort => exact ⟨0, .inr here⟩
  | post requests resume ih =>
    -- one request after the other, and then the program goes on with the answers
    induction requests generalizing resume clients with
    | nil =>
      refine later (ih [] _ ?_)
      simp only [step, here, Function.update_self, Server.advance]
    | cons first requests next =>
      refine later (next (fun replies => resume (replies.insertIdx 0 ((server i).handle first.1 first.2 clients.state).1))
        (fun replies => ih _) _ ?_)
      simp only [step, here, Function.update_self, Server.advance, List.getElem?_cons_zero, List.eraseIdx_cons_zero]

/-- The answers that a client gets come from the states that the run goes through. -/
theorem Always.run {seen : σ → Prop} {kept : α i → Prop} (events : List (Event ι ε))
    (everywhere : ∀ state ∈ visited server environment events clients, seen state)
    (always : Always (fun _ host request reply => ∃ state, seen state ∧ reply = ((server i).handle host request state).1) kept
      (clients.programs i)) :
    Always (fun _ host request reply => ∃ state, seen state ∧ reply = ((server i).handle host request state).1) kept
      ((RpcProgram.run server environment events clients).programs i) := by
  induction events generalizing clients with
  | nil => exact always
  | cons event events ih =>
    refine ih (fun state later => everywhere state (List.mem_cons_of_mem _ later)) ?_
    cases event with
    | environment event => exact always
    | arrive client index =>
      by_cases same : i = client
      · subst same
        simp only [step, Function.update_self]
        exact always.advance (server i) (fun β host request => ⟨clients.state, everywhere _ List.mem_cons_self, rfl⟩) index
      · simp only [step, Function.update_of_ne same]
        exact always

/-- A step that both runs make. -/
theorem Agree.both (separated : Separated server environment own view) (agree : Agree view i clients others)
    (posts : ∀ i, Posts (own i) (clients.programs i)) {event : Event ι ε}
    (mine : ∀ client index, event = .arrive client index → client = i) :
    Agree view i (step server environment clients event) (step server environment others event) := by
  cases event with
  | environment event => exact ⟨agree.1, separated.outside event agree.2⟩
  | arrive client index =>
    obtain rfl := mine client index rfl
    simp only [Agree, step, Function.update_self, ← agree.1]
    rcases @advance_cases _ σ _ _ _ (posts client) index with ⟨_, unchanged⟩ | ⟨β, host, request, next, owned, handled⟩
    · rw [unchanged, unchanged]
      exact ⟨rfl, agree.2⟩
    · obtain ⟨answer, after⟩ := separated.locality host owned agree.2
      rw [handled, handled, answer]
      exact ⟨rfl, after⟩

/-- A step that another client makes. -/
theorem Agree.other (separated : Separated server environment own view) (agree : Agree view i clients others)
    (posts : ∀ i, Posts (own i) (clients.programs i)) {client : ι} (different : client ≠ i) (index : Nat) :
    Agree view i (step server environment clients (.arrive client index)) others := by
  refine ⟨(Function.update_of_ne different.symm _ _).trans agree.1, Eq.trans ?_ agree.2⟩
  rcases @advance_cases _ σ _ _ _ (posts client) index with ⟨_, unchanged⟩ | ⟨β, host, request, next, owned, handled⟩
  · simp only [step, unchanged]
  · simp only [step, handled]
    exact separated.frame host owned different.symm _

/-- What a client gets, and what it sees in the end, is what it would get and see if the
requests of the others were not there. -/
theorem Separated.run_purge (separated : Separated server environment own view) (agree : Agree view i clients others)
    (posts : ∀ i, Posts (own i) (clients.programs i)) (events : List (Event ι ε)) :
    Agree view i (run server environment events clients) (run server environment (purge i events) others) := by
  induction events generalizing clients others with
  | nil => exact agree
  | cons event events ih =>
    have later := @posts_step _ _ _ _ _ _ server environment own clients posts event
    cases event with
    | environment event => exact ih (agree.both separated posts (by simp)) later
    | arrive client index =>
      by_cases same : client = i
      · rw [purge, List.filter_cons_of_pos (by simpa using same)]
        exact ih (agree.both separated posts (by simp [same])) later
      · rw [purge, List.filter_cons_of_neg (by simpa using same)]
        exact ih (agree.other separated posts same index) later

/-! Hosts that may fail. -/

/-- While the state stays good the hosts do what others do, and a bad state does not get good
again. What a client sees decides whether its requests leave a good state good. -/
structure FailsAs (server other : ι → Server ρ σ) (environment : ε → σ → σ) (own : ι → ∀ β, Nat → ρ β → Prop) (view : ι → σ → V)
    (good : σ → Prop) : Prop where
  back : ∀ {i β} (host : Nat) (request : ρ β) state, good ((server i).handle host request state).2 → good state
  agrees : ∀ {i β} (host : Nat) (request : ρ β) state, good ((server i).handle host request state).2 →
    (server i).handle host request state = (other i).handle host request state
  locality : ∀ {i β} (host : Nat) {request : ρ β}, own i _ host request → ∀ {state state'}, good state → good state' →
    view i state = view i state' → good ((server i).handle host request state).2 → good ((server i).handle host request state').2
  outside : ∀ event {state}, good (environment event state) ↔ good state

section Failures
variable {other : ι → Server ρ σ} {good : σ → Prop} (fails : FailsAs server other environment own view good)
include fails

theorem FailsAs.step_eq (posts : ∀ i, Posts (own i) (clients.programs i)) {event : Event ι ε}
    (last : good (step server environment clients event).state) :
    good clients.state ∧ step server environment clients event = step other environment clients event := by
  cases event with
  | environment event => exact ⟨(fails.outside event).mp last, rfl⟩
  | arrive client index =>
    rcases @advance_cases _ σ _ _ _ (posts client) index with ⟨_, unchanged⟩ | ⟨β, host, request, next, owned, handled⟩
    · simp only [step, unchanged] at last ⊢
      exact ⟨last, trivial⟩
    · simp only [step, handled] at last ⊢
      exact ⟨fails.back host request _ last, by rw [fails.agrees host request _ last]⟩

/-- A run to a good state is a run with the other hosts. -/
theorem FailsAs.run_eq (posts : ∀ i, Posts (own i) (clients.programs i)) {events : List (Event ι ε)}
    (last : good (run server environment events clients).state) :
    good clients.state ∧ run server environment events clients = run other environment events clients := by
  induction events generalizing clients with
  | nil => exact ⟨last, rfl⟩
  | cons event events ih =>
    obtain ⟨next, rest⟩ := ih (posts_step posts event) last
    obtain ⟨first, same⟩ := fails.step_eq posts next
    refine ⟨first, rest.trans ?_⟩
    rw [same]
    rfl

theorem FailsAs.step_good (agree : Agree view i clients others) (posts : Posts (own i) (clients.programs i)) (here : good clients.state)
    (there : good others.state) {index : Nat} (last : good (step server environment clients (.arrive i index)).state) :
    good (step server environment others (.arrive i index)).state := by
  simp only [step, ← agree.1] at last ⊢
  rcases @advance_cases _ σ _ _ _ posts index with ⟨_, unchanged⟩ | ⟨β, host, request, next, owned, handled⟩
  · rw [unchanged]
    exact there
  · rw [handled] at last ⊢
    exact fails.locality host owned here there agree.2 last

/-- No host fails if and only if none does when each client has the hosts to itself. -/
theorem FailsAs.good_run_iff (separated : Separated other environment own view) (posts : ∀ i, Posts (own i) (clients.programs i))
    (initial : good clients.state) (events : List (Event ι ε)) :
    good (run server environment events clients).state ↔ ∀ i, good (run server environment (purge i events) clients).state := by
  induction events using List.reverseRecOn with
  | nil => exact ⟨fun good _ => good, fun _ => initial⟩
  | append_singleton events event ih =>
    -- to each client the run looks like its own as long as no host has failed
    have agrees : good (run server environment events clients).state → (∀ i, good (run server environment (purge i events) clients).state) →
        ∀ i, Agree view i (run server environment events clients) (run server environment (purge i events) clients) := by
      intro together alone i
      rw [(fails.run_eq posts together).2, (fails.run_eq posts (alone i)).2]
      exact separated.run_purge ⟨rfl, rfl⟩ posts events
    cases event with
    | environment event => simpa only [purge_concat_environment, run_concat, step, fails.outside] using ih
    | arrive client index =>
      simp only [run_concat, purge_concat_arrive]
      constructor
      · intro last i
        have together := (fails.step_eq (posts_run posts events) last).1
        have alone := ih.mp together
        by_cases same : client = i
        · subst same
          rw [if_pos rfl, run_concat]
          exact fails.step_good (agrees together alone client) (posts_run posts events client) together (alone client) last
        · rw [if_neg same]
          exact alone i
      · intro last
        have alone : ∀ i, good (run server environment (purge i events) clients).state := by
          intro i
          have mine := last i
          by_cases same : client = i
          · rw [if_pos same, run_concat] at mine
            exact (fails.step_eq (posts_run posts _) mine).1
          · rwa [if_neg same] at mine
        have together := ih.mpr alone
        have mine := last client
        rw [if_pos rfl, run_concat] at mine
        have agree := agrees together alone client
        exact fails.step_good ⟨agree.1.symm, agree.2.symm⟩ (posts_run posts _ client) (alone client) together mine

end Failures

end Runs
end RpcProgram
