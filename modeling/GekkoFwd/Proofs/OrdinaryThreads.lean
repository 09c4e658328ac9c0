import GekkoFwd.Proofs.OpenFileSharing

/-! Threads of a program that passes `dup2` only numbers it knows. Their steps are careful as
long as the index does not reach its end, and no number is ever handed out twice. -/

namespace GekkoFwd.Proofs.OrdinaryThreads
open OpenFileMap OpenFileThreads OpenFileThreads.State FdAllocation SharedObject OpenFileSharing

variable {ι φ : Type} [DecidableEq ι] {state : State ι φ} {i : ι} {fd : Int} {steps : Nat}

/-- The number that a call has made a descriptor of. -/
def newDescriptor : OpenFileThreads.Call φ × Result φ → Option Int
  | (.add _, .fd (.ok fd)) | (.dup _, .fd (.ok fd)) => some fd
  | _ => none

def handedOut (state : State ι φ) : List Int := (answers state).filterMap newDescriptor

/-- A number below all that are generated, such as those of the kernel, or one that a call
has returned. -/
def Known (state : State ι φ) (fd : Int) : Prop := fd < 10000 ∨ fd ∈ handedOut state

def Ordinary (state : State ι φ) : Event ι φ → Prop
  | .call _ (.dup2 _ newfd) => Known state newfd
  | _ => True

/-- The number that a `dup2` under way is to bind. -/
def target : Phase φ → Option Int
  | .called (.dup2 _ newfd) | .erased newfd (some _) | .resetting newfd (some _) => some newfd
  | .comparing _ newfd _ | .flagging _ newfd _ | .binding _ newfd _ => some newfd
  | _ => none

def raises : Phase φ → Bool
  | .flagging _ _ _ => true
  | _ => false

/-- What holds of ordinary runs of so many steps: numbers are never checked, and those under
way have not been returned yet. -/
structure Quiet (state : State ι φ) (steps : Nat) : Prop where
  unchecked : state.map.fdValidationNeeded = false
  range : 10000 ≤ state.map.fdIdx ∧ state.map.fdIdx ≤ 10000 + steps
  apart : ∀ i j, i ≠ j → ∀ fd ∈ number (state.phases i), fd ∉ number (state.phases j)
  numbers : ∀ i, ∀ fd ∈ number (state.phases i), 10000 ≤ fd ∧ fd < state.map.fdIdx ∧ fd ∉ handedOut state
  handed : ∀ fd ∈ handedOut state, fd < state.map.fdIdx
  once : (handedOut state).Nodup
  targets : ∀ i, ∀ fd ∈ target (state.phases i), Known state fd
  lowered : ∀ i, raises (state.phases i) = false

omit [DecidableEq ι] in
theorem quiet_initial : Quiet (State.initial : State ι φ) 0 where
  unchecked := rfl
  range := ⟨Int.le_refl 10000, Int.le_refl 10000⟩
  apart _ _ _ _ member := by cases member
  numbers _ _ member := by cases member
  handed _ member := by cases member
  once := .nil
  targets _ _ member := by cases member
  lowered _ := rfl

omit [DecidableEq ι] in
theorem Quiet.later (quiet : Quiet state steps) : Quiet state (steps + 1) where
  __ := quiet
  range := by
    have range := quiet.range
    omega

theorem Quiet.thread {after : State ι φ} (quiet : Quiet state steps) (phase : Phase φ)
    (phases : after.phases = Function.update state.phases i phase) (unchecked : after.map.fdValidationNeeded = false)
    (onward : state.map.fdIdx ≤ after.map.fdIdx ∧ after.map.fdIdx ≤ state.map.fdIdx + 1)
    (mine : ∀ fd ∈ number phase, 10000 ≤ fd ∧ fd < after.map.fdIdx ∧ fd ∉ handedOut state ∧ ∀ j, j ≠ i → fd ∉ number (state.phases j))
    (handed : handedOut after = handedOut state ∨ ∃ fd ∈ number (state.phases i), number phase = none ∧
      handedOut after = handedOut state ++ [fd])
    (targets : ∀ fd ∈ target phase, Known state fd) (lowered : raises phase = false) : Quiet after (steps + 1) := by
  have here : after.phases i = phase := by rw [phases, Function.update_self]
  have there : ∀ {j}, j ≠ i → after.phases j = state.phases j := fun other => by rw [phases, Function.update_of_ne other]
  have range := quiet.range
  have kept : ∀ fd, Known state fd → Known after fd := by
    intro fd known
    rcases handed with same | ⟨new, _, _, more⟩
    · rwa [Known, same]
    · rw [Known, more, List.mem_append]
      exact known.imp_right .inl
  refine ⟨unchecked, by omega, fun j k different fd member => ?_, fun j fd member => ?_, fun fd member => ?_, ?_, fun j fd member => ?_,
    fun j => ?_⟩
  · by_cases first : j = i
    · have other : k ≠ i := fun same => different (first.trans same.symm)
      rw [first, here] at member
      rw [there other]
      exact (mine fd member).2.2.2 k other
    · rw [there first] at member
      by_cases second : k = i
      · rw [second, here]
        exact fun taken => (mine fd taken).2.2.2 j first member
      · rw [there second]
        exact quiet.apart j k different fd member
  · by_cases same : j = i
    · rw [same, here] at member
      obtain ⟨least, below, fresh, _⟩ := mine fd member
      refine ⟨least, below, ?_⟩
      rcases handed with same | ⟨_, _, none, _⟩
      · rwa [same]
      · rw [none] at member
        cases member
    · rw [there same] at member
      obtain ⟨least, below, fresh⟩ := quiet.numbers j fd member
      refine ⟨least, by omega, ?_⟩
      rcases handed with equal | ⟨new, taken, _, more⟩
      · rwa [equal]
      · rw [more, List.mem_append, List.mem_singleton, not_or]
        refine ⟨fresh, ?_⟩
        rintro rfl
        exact quiet.apart j i same fd member taken
  · rcases handed with same | ⟨new, taken, _, more⟩
    · rw [same] at member
      have below := quiet.handed fd member
      omega
    · rw [more, List.mem_append, List.mem_singleton] at member
      rcases member with member | rfl
      · have below := quiet.handed fd member
        omega
      · have below := (quiet.numbers i fd taken).2.1
        omega
  · rcases handed with same | ⟨new, taken, _, more⟩
    · rw [same]
      exact quiet.once
    · rw [more, ← List.concat_eq_append]
      exact quiet.once.concat (quiet.numbers i new taken).2.2
  · by_cases same : j = i
    · rw [same, here] at member
      exact kept fd (targets fd member)
    · rw [there same] at member
      exact kept fd (quiet.targets j fd member)
  · by_cases same : j = i
    · rw [same, here]
      exact lowered
    · rw [there same]
      exact quiet.lowered j

/-- A step that generates no number and returns none. -/
theorem Quiet.pass {after : State ι φ} {before : Phase φ} (quiet : Quiet state steps) (here : state.phases i = before) (phase : Phase φ)
    (phases : after.phases = Function.update state.phases i phase) (unchecked : after.map.fdValidationNeeded = false)
    (index : after.map.fdIdx = state.map.fdIdx) (numbers : number phase = none ∨ number phase = number before)
    (handed : handedOut after = handedOut state) (targets : target phase = none ∨ target phase = target before)
    (lowered : raises phase = false) : Quiet after (steps + 1) := by
  refine quiet.thread phase phases unchecked (by omega) (fun fd member => ?_) (.inl handed) (fun fd member => ?_) lowered
  · rcases numbers with none | same
    · rw [none] at member
      cases member
    · rw [same, ← here] at member
      obtain ⟨least, below, fresh⟩ := quiet.numbers i fd member
      exact ⟨least, by omega, fresh, fun j other => quiet.apart i j other.symm fd member⟩
  · rcases targets with none | same
    · rw [none] at member
      cases member
    · rw [same, ← here] at member
      exact quiet.targets i fd member

theorem handedOut_finish (call : OpenFileThreads.Call φ) (result : Result φ) :
    handedOut (state.finish i call result) = handedOut state ++ (newDescriptor (call, result)).toList := by
  rw [handedOut, answers, State.finish, List.map_append, List.filterMap_append, handedOut, answers]
  cases made : newDescriptor (call, result) <;> simp [made]

theorem Quiet.finish {before : Phase φ} (quiet : Quiet state steps) (here : state.phases i = before) (call : OpenFileThreads.Call φ)
    (result : Result φ) (none : newDescriptor (call, result) = none) : Quiet (state.finish i call result) (steps + 1) := by
  refine quiet.pass here .idle rfl quiet.unchecked rfl (.inl rfl) ?_ (.inl rfl) rfl
  rw [handedOut_finish, none, Option.toList_none, List.append_nil]

theorem Quiet.generate {next : Int → Phase φ} (quiet : Quiet state steps) (early : steps < 2147473647)
    (numbers : ∀ fd, number (next fd) = some fd) (targets : ∀ fd, target (next fd) = none)
    (lowered : ∀ fd, raises (next fd) = false) :
    (∀ j, j ≠ i → state.map.generateFdIdx.1 ∉ number (state.phases j)) ∧ Quiet (state.generate i next) (steps + 1) := by
  have limit : intMax = 2147483647 := rfl
  have range := quiet.range
  obtain ⟨_, generated⟩ := (generateFdIdx_cases state.map).resolve_right (by omega)
  have fresh : ∀ j, state.map.fdIdx ∉ number (state.phases j) := by
    intro j member
    have below := (quiet.numbers j _ member).2.1
    omega
  constructor
  · rw [generated]
    exact fun j _ => fresh j
  · rw [State.generate, generated]
    refine quiet.thread _ rfl quiet.unchecked (by dsimp only; omega) (fun fd member => ?_) (.inl rfl) (fun fd member => ?_) (lowered _)
    · rw [numbers] at member
      cases member
      refine ⟨range.1, Int.lt_succ _, fun returned => ?_, fun j _ => fresh j⟩
      have below := quiet.handed _ returned
      omega
    · rw [targets] at member
      cases member

theorem Quiet.enter {call : OpenFileThreads.Call φ} (quiet : Quiet state steps) (here : state.phases i = .called call)
    (early : steps < 2147473647) : CarefulAt state i (.called call) ∧ Quiet (state.enter i call) (steps + 1) := by
  cases call with
  | add file => exact quiet.generate early (fun _ => rfl) (fun _ => rfl) fun _ => rfl
  | get fd => exact ⟨trivial, quiet.finish here _ _ rfl⟩
  | exist fd => exact ⟨trivial, quiet.finish here _ _ rfl⟩
  | remove fd =>
    refine ⟨trivial, ?_⟩
    rw [State.enter]
    split
    next => exact quiet.pass here _ rfl quiet.unchecked rfl (.inl rfl) rfl (.inl rfl) rfl
    next => exact quiet.finish here _ _ rfl
  | dup oldfd =>
    refine ⟨trivial, ?_⟩
    rw [State.enter]
    split
    next => exact quiet.finish here _ _ rfl
    next => exact quiet.pass here _ rfl quiet.unchecked rfl (.inl rfl) rfl (.inl rfl) rfl
  | dup2 oldfd newfd =>
    refine ⟨trivial, ?_⟩
    rw [State.enter]
    split
    next => exact quiet.finish here _ _ rfl
    next =>
      split
      next => exact quiet.finish here _ _ rfl
      next =>
        split
        next => exact quiet.pass here _ rfl quiet.unchecked rfl (.inl rfl) rfl (.inr rfl) rfl
        next => exact quiet.pass here _ rfl quiet.unchecked rfl (.inl rfl) rfl (.inr rfl) rfl

theorem Quiet.removed {before : Phase φ} {rest : Option (Int × φ)} (quiet : Quiet state steps) (here : state.phases i = before)
    (targets : target before = rest.map fun _ => fd) : Quiet (state.removed i fd rest) (steps + 1) := by
  cases rest with
  | none => exact quiet.finish here _ _ rfl
  | some => exact quiet.pass here _ rfl quiet.unchecked rfl (.inl rfl) rfl (.inr targets.symm) rfl

theorem Quiet.advance {phase : Phase φ} (quiet : Quiet state steps) (here : state.phases i = phase) (early : steps < 2147473647) :
    CarefulAt state i phase ∧ Quiet (state.advance i phase) (steps + 1) := by
  have range := quiet.range
  have known := quiet.targets i
  have mine := quiet.numbers i
  rw [here] at known mine
  have free : ∀ newfd ∈ target phase, newfd < state.map.fdIdx ∧ ∀ j, newfd ∉ number (state.phases j) := by
    intro newfd member
    rcases known newfd member with low | returned
    · refine ⟨by omega, fun j taken => ?_⟩
      have least := (quiet.numbers j newfd taken).1
      omega
    · exact ⟨quiet.handed newfd returned, fun j taken => (quiet.numbers j newfd taken).2.2 returned⟩
  cases phase with
  | idle => exact ⟨trivial, quiet.later⟩
  | called call => exact quiet.enter here early
  | allocating taker | again taker => exact quiet.generate early (fun _ => rfl) (fun _ => rfl) fun _ => rfl
  | generated taker fd =>
    refine ⟨trivial, ?_⟩
    rw [State.advance, quiet.unchecked]
    exact quiet.pass here _ rfl quiet.unchecked rfl (.inr rfl) rfl (.inl rfl) rfl
  | searching taker fd =>
    refine ⟨trivial, ?_⟩
    rw [State.advance]
    split
    next => exact quiet.pass here _ rfl quiet.unchecked rfl (.inl rfl) rfl (.inl rfl) rfl
    next => exact quiet.pass here _ rfl quiet.unchecked rfl (.inr rfl) rfl (.inl rfl) rfl
  | inserting taker fd =>
    refine ⟨trivial, quiet.thread .idle rfl ?_ ?_ (fun _ member => ?_) (.inr ⟨fd, ?_, rfl, ?_⟩) (fun _ member => ?_) rfl⟩
    · exact (fdValidationNeeded_insert _ _ _).trans quiet.unchecked
    · have index := fdIdx_insert state.map fd taker.file
      simp only [State.advance, State.finish, State.go, index]
      omega
    · cases member
    · rw [here]
      rfl
    · rw [State.advance, handedOut_finish]
      obtain ⟨_ | oldfd, file⟩ := taker <;> rfl
    · cases member
  | erased fd rest =>
    refine ⟨trivial, ?_⟩
    have targets : target (.erased fd rest) = rest.map fun _ => fd := by cases rest <;> rfl
    rw [State.advance, quiet.unchecked, Bool.false_and, if_neg Bool.false_ne_true]
    exact quiet.removed here targets
  | resetting fd rest =>
    have targets : target (.resetting fd rest) = rest.map fun _ => fd := by cases rest <;> rfl
    refine ⟨fun j fd member => (quiet.numbers j fd member).2.1, ?_⟩
    have still : Quiet (state.setValidationNeeded false) steps := { quiet with unchecked := rfl }
    exact still.removed here targets
  | comparing oldfd newfd file =>
    refine ⟨trivial, ?_⟩
    have behind := (free newfd rfl).1
    rw [State.advance, if_neg (by omega)]
    exact quiet.pass here _ rfl quiet.unchecked rfl (.inl rfl) rfl (.inr rfl) rfl
  | flagging oldfd newfd file =>
    have lowered := quiet.lowered i
    rw [here] at lowered
    cases lowered
  | binding oldfd newfd file =>
    obtain ⟨behind, apart⟩ := free newfd rfl
    refine ⟨⟨apart, fun same => by omega⟩, quiet.pass here .idle rfl ?_ (fdIdx_insert _ _ _) (.inl rfl) ?_ (.inl rfl) rfl⟩
    · exact (fdValidationNeeded_insert _ _ _).trans quiet.unchecked
    · rw [State.advance, handedOut_finish]
      exact List.append_nil _

theorem Quiet.next {event : Event ι φ} (quiet : Quiet state steps) (ordinary : Ordinary state event) (early : steps < 2147473647) :
    Careful state event ∧ Quiet (state.next event) (steps + 1) := by
  cases event with
  | call j call =>
    refine ⟨trivial, ?_⟩
    rw [State.next]
    split
    next idle =>
      refine quiet.thread (.called call) rfl quiet.unchecked ⟨Int.le_refl _, Int.le_of_lt (Int.lt_succ _)⟩ (fun _ member => ?_) (.inl rfl)
        (fun fd member => ?_) rfl
      · cases member
      · cases call with
        | dup2 oldfd newfd =>
          cases member
          exact ordinary
        | _ => cases member
    next => exact quiet.later
  | step j =>
    obtain ⟨careful, advanced⟩ := quiet.advance rfl early
    refine ⟨careful, ?_⟩
    rw [State.next]
    split
    next => exact quiet.later
    next => exact advanced

theorem Quiet.run {events : List (Event ι φ)} (quiet : Quiet state steps) (ordinary : Admits State.next Ordinary events state)
    (short : steps + events.length ≤ 2147473647) :
    Admits State.next Careful events state ∧ Quiet (events.foldl State.next state) (steps + events.length) := by
  induction events generalizing state steps with
  | nil => exact ⟨trivial, quiet⟩
  | cons event events ih =>
    rw [List.length_cons] at short ⊢
    obtain ⟨careful, stepped⟩ := quiet.next ordinary.1 (by omega)
    obtain ⟨admits, final⟩ := ih stepped ordinary.2 (by omega)
    rw [Nat.add_right_comm] at final
    exact ⟨⟨careful, admits⟩, final⟩

/-- With numbers it knows, a program of any number of threads makes only careful steps, sees one
table, is never given a number twice, and never makes the map look for free numbers. -/
theorem known_targets_share_one_table {events : List (Event ι φ)} (ordinary : Admits State.next Ordinary events State.initial)
    (short : events.length ≤ 2147473647) :
    Admits State.next Careful events State.initial ∧
    (∃ table, History Effect (fun _ => none) (answers (events.foldl State.next State.initial)) table) ∧
      (handedOut (events.foldl State.next State.initial)).Nodup ∧
      (events.foldl State.next State.initial).map.fdValidationNeeded = false := by
  obtain ⟨careful, quiet⟩ := quiet_initial.run ordinary (by omega)
  obtain ⟨table, history, _⟩ := sound_run careful
  exact ⟨careful, ⟨table, history⟩, quiet.once, quiet.unchecked⟩

/-- A descriptor of its own is put in the place of standard output, and of one that another
thread has opened meanwhile. -/
theorem known_targets_share_one_table_redirect : ∃ events : List (Event (Fin 2) Char),
    answers (events.foldl State.next State.initial) = [(.add 'b', .fd (.ok 10001)), (.add 'a', .fd (.ok 10000)),
      (.dup2 10000 1, .fd (.ok 1)), (.dup2 10000 10001, .fd (.ok 10001)), (.get 10001, .file (some 'a'))] ∧
    (handedOut (events.foldl State.next State.initial)).Nodup := by
  let events : List (Event (Fin 2) Char) :=
    [.call 0 (.add 'a'), .call 1 (.add 'b'), .step 0, .step 1, .step 1, .step 0, .step 1, .step 0,
      .call 0 (.dup2 10000 1), .step 0, .step 0, .step 0, .call 0 (.dup2 10000 10001), .step 0, .step 0, .step 0, .step 0,
      .call 1 (.get 10001), .step 1]
  have ordinary : Admits State.next Ordinary events State.initial := by
    simp only [events, Admits, Ordinary, true_and, and_true]
    exact ⟨.inl (by decide), .inr (by decide)⟩
  exact ⟨events, by decide +kernel, (known_targets_share_one_table ordinary (by decide)).2.2.1⟩

end GekkoFwd.Proofs.OrdinaryThreads
