import GekkoFwd.Lib.RpcProgram

/-! Postconditions of a program over all the answers that its requests may get. They
speak of the result and of the requests with what came back for them. -/

namespace RpcProgram

/-- A request and its answer, if one came. -/
structure Exchange (ρ : Type → Type) where
  {β : Type}
  request : ρ β
  reply : Option β

def exchanges {ρ : Type → Type} {β : Type} (requests : List (Nat × ρ β)) (replies : List (Option β)) : List (Exchange ρ) :=
  List.zipWith (fun posted reply => ⟨posted.2, reply⟩) requests replies

theorem mem_exchanges {ρ : Type → Type} {β : Type} {requests : List (Nat × ρ β)} {replies : List (Option β)} {exchange : Exchange ρ} :
    exchange ∈ exchanges requests replies ↔
      ∃ posted reply, (posted, reply) ∈ requests.zip replies ∧ exchange = ⟨posted.2, reply⟩ := by
  rw [exchanges, ← List.map_uncurry_zip_eq_zipWith, List.mem_map]
  constructor
  · rintro ⟨⟨posted, reply⟩, member, rfl⟩
    exact ⟨posted, reply, member, rfl⟩
  · rintro ⟨posted, reply, member, rfl⟩
    exact ⟨(posted, reply), member, rfl⟩

/-- Every reply of a whole batch belongs to a request. -/
theorem exists_mem_zip {α β : Type} {requests : List α} {replies : List β} (length : replies.length = requests.length) {reply : β}
    (member : reply ∈ replies) : ∃ posted, (posted, reply) ∈ requests.zip replies := by
  obtain ⟨index, inside, rfl⟩ := List.mem_iff_getElem.mp member
  refine ⟨requests[index], List.mem_iff_getElem.mpr ⟨index, ?_, ?_⟩⟩
  · rw [List.length_zip, ← length]
    omega
  · rw [List.getElem_zip]

/-- The answers that a batch may get. -/
abbrev Allowed (ρ : Type → Type) := (β : Type) → List (Nat × ρ β) → List (Option β) → Prop

variable {ρ : Type → Type} {α β : Type}

/-- Whatever the allowed answers are, a program that returns does so with the property.
Nothing is said about a program that ends the process. -/
def Ensures (allowed : Allowed ρ) : Program ρ α → (List (Exchange ρ) → α → Prop) → Prop
  | .pure value, post => post [] value
  | .abort, _ => True
  | .post requests resume, post => ∀ replies, replies.length = requests.length → allowed _ requests replies →
      Ensures allowed (resume replies) fun log value => post (exchanges requests replies ++ log) value

variable {allowed : Allowed ρ} {program : Program ρ α} {post weaker : List (Exchange ρ) → α → Prop}

theorem Ensures.mono (ensures : Ensures allowed program post) (implies : ∀ log value, post log value → weaker log value) :
    Ensures allowed program weaker := by
  induction program generalizing post weaker with
  | pure value => exact implies [] value ensures
  | abort => trivial
  | post requests resume ih =>
    intro replies length passed
    exact ih replies (ensures replies length passed) fun log value => implies _ value

theorem ensures_true (program : Program ρ α) : Ensures allowed program fun _ _ => True := by
  induction program with
  | pure | abort => trivial
  | post requests resume ih => exact fun replies _ _ => ih replies

/-- One program after another, whose log goes on where the first one ended. -/
theorem Ensures.bind {next : α → Program ρ β} {last : List (Exchange ρ) → β → Prop} (ensures : Ensures allowed program post)
    (continues : ∀ log value, post log value → Ensures allowed (next value) fun rest result => last (log ++ rest) result) :
    Ensures allowed (program.bind next) last := by
  induction program generalizing post last with
  | pure value => exact continues [] value ensures
  | abort => trivial
  | post requests resume ih =>
    intro replies length passed
    refine ih replies (ensures replies length passed) fun log value holds => ?_
    simpa only [List.append_assoc] using continues _ value holds

/-- One request to one host, and what is done with the answer. -/
theorem ensures_call_bind {γ : Type} {host : Nat} {request : ρ β} {next : Option β → Program ρ γ} {last : List (Exchange ρ) → γ → Prop}
    (answered : ∀ reply, allowed _ [(host, request)] [reply] →
      Ensures allowed (next reply) fun rest result => last (⟨request, reply⟩ :: rest) result) :
    Ensures allowed ((Program.call host request).bind next) last := by
  intro replies length passed
  obtain ⟨reply, rfl⟩ := List.length_eq_one_iff.mp length
  exact answered reply passed

/-- A program returns a value once its requests have got these answers. -/
def Returns (allowed : Allowed ρ) : Program ρ α → List (Exchange ρ) → α → Prop
  | .pure value, log, result => log = [] ∧ result = value
  | .abort, _, _ => False
  | .post requests resume, log, result => ∃ replies rest, replies.length = requests.length ∧ allowed _ requests replies ∧
      log = exchanges requests replies ++ rest ∧ Returns allowed (resume replies) rest result

theorem Ensures.of_returns {log : List (Exchange ρ)} {value : α} (ensures : Ensures allowed program post)
    (returned : Returns allowed program log value) : post log value := by
  induction program generalizing log post with
  | pure result =>
    obtain ⟨rfl, rfl⟩ := returned
    exact ensures
  | abort => exact returned.elim
  | post requests resume ih =>
    obtain ⟨replies, rest, length, passed, rfl, resumed⟩ := returned
    have after := ih replies (ensures replies length passed) resumed
    exact after

theorem Returns.bind {next : α → Program ρ β} {log rest : List (Exchange ρ)} {value : α} {result : β}
    (first : Returns allowed program log value) (second : Returns allowed (next value) rest result) :
    Returns allowed (program.bind next) (log ++ rest) result := by
  induction program generalizing log with
  | pure same =>
    obtain ⟨rfl, rfl⟩ := first
    exact second
  | abort => exact first.elim
  | post requests resume ih =>
    obtain ⟨replies, between, length, passed, rfl, resumed⟩ := first
    exact ⟨replies, between ++ rest, length, passed, List.append_assoc _ _ _, ih replies resumed⟩

theorem Returns.map {log : List (Exchange ρ)} {value : α} (f : α → β) (first : Returns allowed program log value) :
    Returns allowed (program.bind fun result => .pure (f result)) log (f value) := by
  have mapped : Returns allowed (program.bind fun result => .pure (f result)) (log ++ []) (f value) := first.bind ⟨rfl, rfl⟩
  rwa [List.append_nil] at mapped

end RpcProgram
