import Mathlib.Data.Fintype.Basic
import GekkoFwd.Lib.SharedObject
import GekkoFwd.OpenFileThreads
import GekkoFwd.Proofs.FdAllocation

/-! Threads that share the table of open files. A number belongs to the thread that has
generated it until it is bound; the threads then see one table of descriptors, on which their
calls take effect at once. -/

namespace GekkoFwd.Proofs.OpenFileSharing
open OpenFileMap OpenFileThreads OpenFileThreads.State FdAllocation SharedObject

variable {ι φ : Type} [DecidableEq ι] {state : State ι φ} {i : ι} {fd : Int} {file : φ}

/-- The descriptors as the callers know them. -/
abbrev Table (φ : Type) := Int → Option φ

/-- What a call returns, and the table after it. A new descriptor may have any free number. -/
inductive Effect : Table φ → OpenFileThreads.Call φ → Result φ → Table φ → Prop where
  | get (table : Table φ) (fd : Int) : Effect table (.get fd) (.file (table fd)) table
  | exist (table : Table φ) (fd : Int) : Effect table (.exist fd) (.flag (table fd).isSome) table
  | remove (table : Table φ) (fd : Int) : Effect table (.remove fd) (.flag (table fd).isSome) (Function.update table fd none)
  | add {table : Table φ} {fd : Int} (file : φ) (free : table fd = none) :
      Effect table (.add file) (.fd (.ok fd)) (Function.update table fd (some file))
  | dup {table : Table φ} {oldfd fd : Int} {file : φ} (bound : table oldfd = some file) (free : table fd = none) :
      Effect table (.dup oldfd) (.fd (.ok fd)) (Function.update table fd (some file))
  | dup2 {table : Table φ} {oldfd : Int} {file : φ} (bound : table oldfd = some file) (newfd : Int) :
      Effect table (.dup2 oldfd newfd) (.fd (.ok newfd)) (Function.update table newfd (some file))
  | dupUnbound {table : Table φ} {oldfd : Int} (unbound : table oldfd = none) :
      Effect table (.dup oldfd) (.fd (.error Errno.ebadf)) table
  | dup2Unbound {table : Table φ} {oldfd : Int} (unbound : table oldfd = none) (newfd : Int) :
      Effect table (.dup2 oldfd newfd) (.fd (.error Errno.ebadf)) table

/-- The number that a thread has generated and not bound yet. -/
def number : Phase φ → Option Int
  | .generated _ fd | .searching _ fd | .inserting _ fd => some fd
  | _ => none

def locked : Phase φ → Bool
  | .allocating taker | .again taker | .generated taker _ | .searching taker _ | .inserting taker _ => taker.oldfd.isSome
  | .erased _ _ | .resetting _ _ | .comparing _ _ _ | .flagging _ _ _ | .binding _ _ _ => true
  | .idle | .called _ => false

/-- The entry that a `remove` or a `dup2` under way has taken out of the table. -/
def hole : Phase φ → Option Int
  | .erased fd _ | .resetting fd _ | .comparing _ fd _ | .flagging _ fd _ | .binding _ fd _ => some fd
  | _ => none

/-- What a `dup2` knows of its two descriptors while it holds the lock. -/
def Moving (map : OpenFileMap φ) (oldfd newfd : Int) (file : φ) : Prop := map.get newfd = none ∧ map.get oldfd = some file

/-- What a thread may rely on. -/
def Relies (map : OpenFileMap φ) (table : Table φ) : Phase φ → Prop
  | .idle | .called _ => True
  | .allocating taker | .again taker | .generated taker _ | .searching taker _ => ∀ oldfd ∈ taker.oldfd, map.get oldfd = some taker.file
  | .inserting taker fd => (∀ oldfd ∈ taker.oldfd, map.get oldfd = some taker.file) ∧ map.get fd = none
  | .erased fd none => map.get fd = none ∧ table fd ≠ none
  | .resetting fd none => map.get fd = none ∧ table fd ≠ none ∧ ∀ other, map.get other = none
  | .erased fd (some (oldfd, file)) => Moving map oldfd fd file
  | .resetting fd (some (oldfd, file)) => Moving map oldfd fd file ∧ ∀ other, map.get other = none
  | .comparing oldfd newfd file | .flagging oldfd newfd file => Moving map oldfd newfd file
  | .binding oldfd newfd file => Moving map oldfd newfd file ∧ (map.fdValidationNeeded = false → newfd ≤ map.fdIdx)

/-- The invariant of the threads, with the table that their callers see. -/
structure Sound (state : State ι φ) (table : Table φ) : Prop where
  range : 10000 ≤ state.map.fdIdx ∧ state.map.fdIdx ≤ intMax
  owner : ∀ i, locked (state.phases i) = true ↔ state.filesMutex = some i
  apart : ∀ i j, i ≠ j → ∀ fd ∈ number (state.phases i), fd ∉ number (state.phases j)
  relies : ∀ i, Relies state.map table (state.phases i)
  -- as long as nobody looks for free numbers, the next index is behind all others
  bound : state.map.fdValidationNeeded = false → ∀ fd, state.map.get fd ≠ none → fd < state.map.fdIdx
  pending : state.map.fdValidationNeeded = false → ∀ i, ∀ fd ∈ number (state.phases i), fd < state.map.fdIdx ∧ state.map.get fd = none
  shown : ∀ fd, (∀ i, hole (state.phases i) ≠ some fd) → table fd = state.map.get fd

omit [DecidableEq ι] in
theorem sound_initial : Sound (State.initial : State ι φ) fun _ => none where
  range := sound_empty.range
  owner _ := ⟨nofun, nofun⟩
  apart _ _ _ _ := nofun
  relies _ := trivial
  bound _ fd bound := absurd (AList.lookup_empty fd) bound
  pending _ _ _ := nofun
  shown fd _ := (AList.lookup_empty (β := fun _ => φ) fd).symm

/-- What a step has to keep clear of. A number that is generated belongs to no other thread
(none can have it unless the index has wrapped). When `fd_validation_needed` is reset, all
numbers under way lie below the index. A `dup2` does not bind a number under way, nor the next
index unless numbers are checked. -/
def CarefulAt (state : State ι φ) (i : ι) : Phase φ → Prop
  | .called (.add _) | .allocating _ | .again _ => ∀ j, j ≠ i → state.map.generateFdIdx.1 ∉ number (state.phases j)
  | .resetting _ _ => ∀ j, ∀ fd ∈ number (state.phases j), fd < state.map.fdIdx
  | .binding _ newfd _ => (∀ j, newfd ∉ number (state.phases j)) ∧ (newfd = state.map.fdIdx → state.map.fdValidationNeeded = true)
  | _ => True

def Careful (state : State ι φ) : Event ι φ → Prop
  | .call _ _ => True
  | .step i => CarefulAt state i (state.phases i)

instance [Fintype ι] (state : State ι φ) (i : ι) : (phase : Phase φ) → Decidable (CarefulAt state i phase)
  | .called (.add _) | .allocating _ | .again _ => inferInstanceAs (Decidable (∀ j, j ≠ i → _ ∉ number (state.phases j)))
  | .resetting _ _ => inferInstanceAs (Decidable (∀ j, ∀ fd ∈ number (state.phases j), fd < _))
  | .binding _ _ _ => inferInstanceAs (Decidable (_ ∧ (_ → _)))
  | .idle | .called (.get _) | .called (.exist _) | .called (.remove _) | .called (.dup _) | .called (.dup2 _ _) => isTrue trivial
  | .generated _ _ | .searching _ _ | .inserting _ _ | .erased _ _ | .comparing _ _ _ | .flagging _ _ _ => isTrue trivial

instance [Fintype ι] (state : State ι φ) : (event : Event ι φ) → Decidable (Careful state event)
  | .call _ _ => isTrue trivial
  | .step i => inferInstanceAs (Decidable (CarefulAt state i (state.phases i)))

section Frame

theorem available_iff : state.available i = true ↔ state.filesMutex = none ∨ state.filesMutex = some i := by
  rw [available]
  cases state.filesMutex with
  | none => simp
  | some j => simp

/-- While a thread has the lock or could take it, the others are out of the table. -/
theorem Sound.unlocked {table : Table φ} (sound : Sound state table) (free : state.available i = true) {j : ι} (other : j ≠ i) :
    locked (state.phases j) = false := by
  rw [Bool.eq_false_iff]
  intro held
  have owned := (sound.owner j).mp held
  rcases available_iff.mp free with unowned | mine
  · rw [unowned] at owned
    cases owned
  · rw [mine] at owned
    exact other (Option.some.inj owned).symm

theorem hole_of_unlocked {phase : Phase φ} (unlocked : locked phase = false) : hole phase = none := by
  cases phase <;> first | rfl | cases unlocked

/-- A thread that has no lock relies only on its number. -/
theorem relies_of_unlocked {map after : OpenFileMap φ} {table later : Table φ} {phase : Phase φ} (unlocked : locked phase = false)
    (before : Relies map table phase) (kept : ∀ fd ∈ number phase, map.get fd = none → after.get fd = none) :
    Relies after later phase := by
  have nothing : ∀ {taker : Taker φ}, taker.oldfd.isSome = false → ∀ oldfd ∈ taker.oldfd, after.get oldfd = some taker.file := by
    intro taker absent oldfd member
    rw [Option.isSome_eq_false_iff, Option.isNone_iff_eq_none] at absent
    rw [absent] at member
    cases member
  cases phase with
  | idle | called => trivial
  | allocating | again | generated | searching => exact nothing unlocked
  | inserting taker fd => exact ⟨nothing unlocked, kept fd rfl before.2⟩
  | erased | resetting | comparing | flagging | binding => cases unlocked

/-- A step of one thread: what it has to establish for itself and to keep for the others. -/
theorem Sound.thread {table later : Table φ} {after : State ι φ} (sound : Sound state table) (phase : Phase φ)
    (phases : after.phases = Function.update state.phases i phase)
    (range : 10000 ≤ after.map.fdIdx ∧ after.map.fdIdx ≤ intMax) (own : locked phase = true ↔ after.filesMutex = some i)
    (mutex : ∀ j, j ≠ i → (state.filesMutex = some j ↔ after.filesMutex = some j))
    (fresh : ∀ fd ∈ number phase, ∀ j, j ≠ i → fd ∉ number (state.phases j)) (mine : Relies after.map later phase)
    (theirs : ∀ j, j ≠ i → Relies after.map later (state.phases j))
    (bound : after.map.fdValidationNeeded = false → ∀ fd, after.map.get fd ≠ none → fd < after.map.fdIdx)
    (pending : after.map.fdValidationNeeded = false → ∀ fd, fd ∈ number phase ∨ (∃ j, j ≠ i ∧ fd ∈ number (state.phases j)) →
      fd < after.map.fdIdx ∧ after.map.get fd = none)
    (shown : ∀ fd, hole phase ≠ some fd → (∀ j, j ≠ i → hole (state.phases j) ≠ some fd) → later fd = after.map.get fd) :
    Sound after later := by
  have here : after.phases i = phase := by rw [phases, Function.update_self]
  have there : ∀ {j}, j ≠ i → after.phases j = state.phases j := fun other => by rw [phases, Function.update_of_ne other]
  refine ⟨range, fun j => ?_, fun j k different => ?_, fun j => ?_, bound, fun unchecked j => ?_, fun fd outside => ?_⟩
  · by_cases same : j = i
    · rw [same, here]
      exact own
    · rw [there same, ← mutex j same]
      exact sound.owner j
  · by_cases same : j = i
    · have other : k ≠ i := fun equal => different (same.trans equal.symm)
      rw [same, here, there other]
      exact fun fd member => fresh fd member k other
    · rw [there same]
      by_cases last : k = i
      · rw [last, here]
        exact fun fd member taken => fresh fd taken j same member
      · rw [there last]
        exact sound.apart j k different
  · by_cases same : j = i
    · rw [same, here]
      exact mine
    · rw [there same]
      exact theirs j same
  · by_cases same : j = i
    · rw [same, here]
      exact fun fd member => pending unchecked fd (.inl member)
    · rw [there same]
      exact fun fd member => pending unchecked fd (.inr ⟨j, same, member⟩)
  · apply shown fd
    · rw [← here]
      exact outside i
    · intro j other
      rw [← there other]
      exact outside j

/-- A step that touches nothing that is shared. -/
theorem Sound.go {table : Table φ} {before : Phase φ} (sound : Sound state table) (here : state.phases i = before) (phase : Phase φ)
    (own : locked phase = locked before) (numbers : number phase = none ∨ number phase = number before)
    (holes : hole phase = hole before) (mine : Relies state.map table phase) : Sound (state.go i phase) table := by
  have kept : ∀ fd ∈ number phase, fd ∈ number (state.phases i) := by
    intro fd member
    rcases numbers with none | same
    · rw [none] at member
      cases member
    · rwa [here, ← same]
  refine sound.thread phase rfl sound.range ?_ (fun _ _ => .rfl) ?_ mine (fun j _ => sound.relies j) sound.bound ?_ ?_
  · rw [own, ← here]
    exact sound.owner i
  · intro fd member j other
    exact sound.apart i j other.symm fd (kept fd member)
  · rintro unchecked fd (member | ⟨j, _, member⟩)
    · exact sound.pending unchecked i fd (kept fd member)
    · exact sound.pending unchecked j fd member
  · intro fd outside theirs
    apply sound.shown fd
    intro j
    by_cases same : j = i
    · rw [same, here, ← holes]
      exact outside
    · exact theirs j same

end Frame

/-- What `generate_fd_idx` does to the map. -/
structure Onward (map after : OpenFileMap φ) : Prop where
  files : ∀ fd, after.get fd = map.get fd
  checks : after.fdValidationNeeded = false → map.fdValidationNeeded = false ∧ map.fdIdx ≤ after.fdIdx

/-- Only a `dup2` about to bind its descriptor relies on more than the table. -/
theorem Relies.of_get {map after : OpenFileMap φ} {table : Table φ} {phase : Phase φ} (before : Relies map table phase)
    (files : ∀ fd, after.get fd = map.get fd)
    (checks : ∀ oldfd newfd file, phase = .binding oldfd newfd file → after.fdValidationNeeded = false → newfd ≤ after.fdIdx) :
    Relies after table phase := by
  cases phase with
  | idle | called => trivial
  | allocating | again | generated | searching | inserting | comparing | flagging => simpa only [Relies, Moving, files] using before
  | erased _ rest | resetting _ rest => cases rest <;> simpa only [Relies, Moving, files] using before
  | binding oldfd newfd file => exact ⟨by simpa only [Moving, files] using before.1, checks oldfd newfd file rfl⟩

theorem Relies.onward {map after : OpenFileMap φ} {table : Table φ} {phase : Phase φ} (before : Relies map table phase)
    (onward : Onward map after) : Relies after table phase := by
  apply before.of_get onward.files
  rintro oldfd newfd file rfl unchecked
  have behind := onward.checks unchecked
  exact Int.le_trans (before.2 behind.1) behind.2

theorem generateFdIdx_cases (map : OpenFileMap φ) :
    (map.fdIdx ≠ intMax ∧ map.generateFdIdx = (map.fdIdx, { map with fdIdx := map.fdIdx + 1 })) ∨
      (map.fdIdx = intMax ∧ map.generateFdIdx = (100000, { map with fdIdx := 100001, fdValidationNeeded := true })) := by
  by_cases last : map.fdIdx = intMax
  · exact .inr ⟨last, by rw [generateFdIdx, if_pos last]⟩
  · exact .inl ⟨last, by rw [generateFdIdx, if_neg last]⟩

theorem onward_generateFdIdx (map : OpenFileMap φ) : Onward map map.generateFdIdx.2 := by
  rcases generateFdIdx_cases map with ⟨_, generated⟩ | ⟨_, generated⟩
  · rw [generated]
    exact ⟨fun _ => rfl, fun unchecked => ⟨unchecked, by dsimp only; omega⟩⟩
  · rw [generated]
    exact ⟨fun _ => rfl, nofun⟩

omit [DecidableEq ι] in
theorem get_erase (fd other : Int) : (state.erase fd).map.get other = if other = fd then none else state.map.get other := by
  by_cases same : other = fd
  · rw [if_pos same, same]
    exact AList.lookup_erase fd _
  · rw [if_neg same]
    exact AList.lookup_erase_ne same

theorem get_of_isEmpty {map : OpenFileMap φ} (empty : map.files.keys.isEmpty = true) (fd : Int) : map.get fd = none := by
  apply AList.lookup_eq_none.mpr
  intro member
  change fd ∈ map.files.keys at member
  rw [List.isEmpty_iff.mp empty] at member
  cases member

section Steps
variable {table : Table φ} (sound : Sound state table)
include sound

/-- The number that a thread generates is behind all others, or numbers are checked from now on. -/
theorem Sound.generate {before : Phase φ} {next : Int → Phase φ} (here : state.phases i = before)
    (held : ∀ fd, locked (next fd) = locked before)
    (numbers : ∀ fd, number (next fd) = some fd) (outside : hole before = none) (mine : ∀ fd, Relies state.map table (next fd))
    (careful : ∀ j, j ≠ i → state.map.generateFdIdx.1 ∉ number (state.phases j)) : Sound (state.generate i next) table := by
  have limit : intMax = 2147483647 := rfl
  have range := sound.range
  have onward := onward_generateFdIdx state.map
  refine sound.thread _ rfl ?_ ?_ (fun _ _ => .rfl) ?_ ((mine _).onward onward) (fun j _ => (sound.relies j).onward onward) ?_ ?_ ?_
  · change 10000 ≤ state.map.generateFdIdx.2.fdIdx ∧ state.map.generateFdIdx.2.fdIdx ≤ intMax
    rcases generateFdIdx_cases state.map with ⟨inside, generated⟩ | ⟨_, generated⟩ <;> rw [generated] <;> dsimp only <;> omega
  · rw [held, ← here]
    exact sound.owner i
  · intro fd member j other
    rw [numbers] at member
    cases member
    exact careful j other
  · intro unchecked fd bound
    have behind := onward.checks unchecked
    rw [State.generate, onward.files] at bound
    have below := sound.bound behind.1 fd bound
    exact Int.lt_of_lt_of_le below behind.2
  · intro unchecked fd held
    have behind := onward.checks unchecked
    change fd < state.map.generateFdIdx.2.fdIdx ∧ state.map.generateFdIdx.2.get fd = none
    rw [onward.files]
    rcases held with member | ⟨j, _, member⟩
    · rw [numbers] at member
      cases member
      rcases generateFdIdx_cases state.map with ⟨inside, generated⟩ | ⟨_, generated⟩
      · rw [generated]
        refine ⟨Int.lt_succ _, ?_⟩
        by_contra bound
        exact Int.lt_irrefl _ (sound.bound behind.1 _ bound)
      · change state.map.generateFdIdx.2.fdValidationNeeded = false at unchecked
        rw [generated] at unchecked
        cases unchecked
    · obtain ⟨below, free⟩ := sound.pending behind.1 j fd member
      exact ⟨Int.lt_of_lt_of_le below behind.2, free⟩
  · intro fd _ theirs
    change table fd = state.map.generateFdIdx.2.get fd
    rw [onward.files]
    apply sound.shown fd
    intro j
    by_cases same : j = i
    · rw [same, here, outside]
      exact (Option.some_ne_none fd).symm
    · exact theirs j same

/-- A step with the lock. The thread leaves the others' numbers alone. -/
theorem Sound.within {later : Table φ} {after : State ι φ} (free : state.available i = true) (phase : Phase φ)
    (phases : after.phases = Function.update state.phases i phase) (index : after.map.fdIdx = state.map.fdIdx)
    (mutex : after.filesMutex = if locked phase then some i else none) (numbers : number phase = none) (mine : Relies after.map later phase)
    (theirs : ∀ j, j ≠ i → ∀ fd ∈ number (state.phases j), state.map.get fd = none → after.map.get fd = none)
    (bound : after.map.fdValidationNeeded = false → ∀ fd, after.map.get fd ≠ none → fd < state.map.fdIdx)
    (pending : after.map.fdValidationNeeded = false → state.map.fdValidationNeeded = false ∨
      (∀ fd, after.map.get fd = none) ∧ ∀ j, ∀ fd ∈ number (state.phases j), fd < state.map.fdIdx)
    (shown : ∀ fd, hole phase ≠ some fd → later fd = after.map.get fd) : Sound after later := by
  have others : ∀ j, j ≠ i → state.filesMutex ≠ some j := by
    intro j other owned
    have unlocked := sound.unlocked free other
    rw [(sound.owner j).mpr owned] at unlocked
    cases unlocked
  refine sound.thread phase phases ?_ ?_ (fun j other => ?_) ?_ mine (fun j other => ?_) ?_ ?_ fun fd here _ => shown fd here
  · rw [index]
    exact sound.range
  · rw [mutex]
    cases locked phase <;> simp
  · refine iff_of_false (others j other) ?_
    rw [mutex]
    split
    next => exact fun same => other (Option.some.inj same).symm
    next => exact (Option.some_ne_none j).symm
  · intro fd member
    rw [numbers] at member
    cases member
  · exact relies_of_unlocked (sound.unlocked free other) (sound.relies j) (theirs j other)
  · rw [index]
    exact bound
  · rw [numbers, index]
    rintro unchecked fd (impossible | ⟨j, other, member⟩)
    · cases impossible
    · rcases pending unchecked with before | ⟨nothing, below⟩
      · obtain ⟨below, unbound⟩ := sound.pending before j fd member
        exact ⟨below, theirs j other fd member unbound⟩
      · exact ⟨below j fd member, nothing fd⟩

/-- Outside its own hole, a thread with the lock finds the table that everybody sees. -/
theorem Sound.shown_within (free : state.available i = true) (outside : hole (state.phases i) ≠ some fd) : table fd = state.map.get fd := by
  apply sound.shown fd
  intro j
  by_cases same : j = i
  · rw [same]
    exact outside
  · rw [hole_of_unlocked (sound.unlocked free same)]
    exact (Option.some_ne_none fd).symm

theorem Sound.seen {before : Phase φ} (free : state.available i = true) (here : state.phases i = before) (outside : hole before = none)
    (fd : Int) :
    table fd = state.map.get fd := by
  apply sound.shown_within free
  rw [here, outside]
  exact (Option.some_ne_none fd).symm

/-- A thread takes the lock and leaves the table as it is. -/
theorem Sound.lock {before : Phase φ} (free : state.available i = true) (here : state.phases i = before) (outside : hole before = none)
    (phase : Phase φ) (held : locked phase = true) (numbers : number phase = none) (mine : Relies state.map table phase) :
    Sound { state.go i phase with filesMutex := some i } table := by
  have mutex : some i = if locked phase then some i else none := by rw [held, if_pos rfl]
  exact sound.within free phase rfl rfl mutex numbers mine (fun _ _ _ _ unbound => unbound) sound.bound .inl
    fun fd _ => sound.seen free here outside fd

/-- A call that has only looked at the table. -/
theorem Sound.finish {before : Phase φ} (free : state.available i = true) (here : state.phases i = before) (outside : hole before = none)
    (call : OpenFileThreads.Call φ) (result : Result φ) : Sound (state.finish i call result) table :=
  sound.within free .idle rfl rfl rfl rfl trivial (fun _ _ _ _ unbound => unbound) sound.bound .inl
    fun fd _ => sound.seen free here outside fd

/-- A thread takes the lock and an entry out of the table. The callers do not see that yet. -/
theorem Sound.erase {before : Phase φ} (free : state.available i = true) (here : state.phases i = before) (outside : hole before = none)
    (rest : Option (Int × φ)) (mine : Relies (state.erase fd).map table (.erased fd rest)) :
    Sound { (state.erase fd).go i (.erased fd rest) with filesMutex := some i } table := by
  have fewer : ∀ other, state.map.get other = none → (state.erase fd).map.get other = none := by
    intro other unbound
    rw [get_erase, unbound, ite_self]
  refine sound.within free (.erased fd rest) rfl rfl rfl rfl mine (fun _ _ other _ => fewer other) ?_ .inl ?_
  · intro unchecked other bound
    exact sound.bound unchecked other fun unbound => bound (fewer other unbound)
  · intro other apart
    have different : other ≠ fd := fun same => apart (congrArg some same.symm)
    change table other = (state.erase fd).map.get other
    rw [get_erase, if_neg different, sound.seen free here outside]

/-- A thread binds a number that is free and belongs to no other thread, and gives up the lock. -/
theorem Sound.insert (free : state.available i = true) (outside : ∀ other, other ≠ fd → hole (state.phases i) ≠ some other)
    (unbound : state.map.get fd = none) (apart : ∀ j, j ≠ i → fd ∉ number (state.phases j))
    (below : state.map.fdValidationNeeded = false → fd < state.map.fdIdx) (file : φ) (call : OpenFileThreads.Call φ) (result : Result φ) :
    Sound ({ state with map := state.map.insert fd file }.finish i call result) (Function.update table fd (some file)) := by
  have now : ∀ other, (state.map.insert fd file).get other = if other = fd then some file else state.map.get other := by
    intro other
    rw [get_insert]
    simp [unbound]
  have flag := fdValidationNeeded_insert state.map fd file
  refine sound.within free .idle rfl (fdIdx_insert _ _ _) rfl rfl trivial ?_ ?_ ?_ ?_
  · intro j other fd' member before
    have different : fd' ≠ fd := by
      rintro rfl
      exact apart j other member
    change (state.map.insert fd file).get fd' = none
    rw [now, if_neg different, before]
  · intro unchecked other bound
    change (state.map.insert fd file).fdValidationNeeded = false at unchecked
    change (state.map.insert fd file).get other ≠ none at bound
    rw [flag] at unchecked
    rw [now] at bound
    split at bound
    next same =>
      rw [same]
      exact below unchecked
    next => exact sound.bound unchecked other bound
  · intro unchecked
    change (state.map.insert fd file).fdValidationNeeded = false at unchecked
    rw [flag] at unchecked
    exact .inl unchecked
  · intro other _
    change Function.update table fd (some file) other = (state.map.insert fd file).get other
    rw [now, Function.update_apply]
    split
    next => rfl
    next different => exact sound.shown_within free (outside other different)

/-- Once an entry is out of the table, a `remove` may return. -/
theorem Sound.removed (free : state.available i = true) (here : hole (state.phases i) = some fd) (unbound : state.map.get fd = none) :
    Sound (state.finish i (.remove fd) (.flag true)) (Function.update table fd none) := by
  refine sound.within free .idle rfl rfl rfl rfl trivial (fun _ _ _ _ unbound => unbound) sound.bound .inl fun other _ => ?_
  change Function.update table fd none other = state.map.get other
  rw [Function.update_apply]
  split
  next same => rw [same, unbound]
  next different =>
    apply sound.shown_within free
    rw [here]
    exact fun same => different (Option.some.inj same).symm

omit [DecidableEq ι] in
/-- The checks may begin at any time. -/
theorem Sound.setNeeded : Sound (state.setValidationNeeded true) table where
  range := sound.range
  owner := sound.owner
  apart := sound.apart
  relies j := (sound.relies j).of_get (fun _ => rfl) fun _ _ _ _ => nofun
  bound := nofun
  pending := nofun
  shown := sound.shown

omit [DecidableEq ι] in
/-- The checks may end when nothing is bound and the numbers under way are not ahead. -/
theorem Sound.resetNeeded (nothing : ∀ fd, state.map.get fd = none)
    (below : ∀ j, ∀ fd ∈ number (state.phases j), fd < state.map.fdIdx) : Sound (state.setValidationNeeded false) table where
  range := sound.range
  owner := sound.owner
  apart := sound.apart
  relies j := by
    refine (sound.relies j).of_get (fun _ => rfl) fun oldfd newfd file phase => ?_
    have relies := sound.relies j
    rw [phase] at relies
    have bound := relies.1.2
    rw [nothing] at bound
    cases bound
  bound _ fd bound := absurd (nothing fd) bound
  pending _ j fd member := ⟨below j fd member, nothing fd⟩
  shown := sound.shown

end Steps

/-- The calls that have returned, with their answers. -/
def answers (state : State ι φ) : List (OpenFileThreads.Call φ × Result φ) := state.returned.map Prod.snd

/-- A step is seen by the callers as one of the table's own, or not at all. -/
abbrev Reports (state after : State ι φ) (table : Table φ) : Prop := Returns Effect answers Sound state after table

omit [DecidableEq ι] in
theorem reports_nothing {after : State ι φ} {table : Table φ} (still : Sound after table) (same : after.returned = state.returned) :
    Reports state after table :=
  .inl ⟨by rw [answers, same, answers], still⟩

omit [DecidableEq ι] in
theorem reports_one {after : State ι φ} {table later : Table φ} {call : OpenFileThreads.Call φ} {result : Result φ}
    (effect : Effect table call result later) (now : Sound after later) (one : after.returned = state.returned ++ [(i, call, result)]) :
    Reports state after table :=
  .inr ⟨call, result, later, by rw [answers, one, List.map_append, answers]; rfl, effect, now⟩

section Calls
variable {table : Table φ} (sound : Sound state table)
include sound

theorem Sound.enter {call : OpenFileThreads.Call φ} (here : state.phases i = .called call) (careful : CarefulAt state i (.called call))
    (free : needsMutex (.called call) = true → state.available i = true) : Reports state (state.enter i call) table := by
  cases call with
  | add file =>
    apply reports_nothing _ rfl
    refine sound.generate here (fun _ => rfl) (fun _ => rfl) rfl (fun _ oldfd member => ?_) careful
    cases member
  | get fd =>
    rw [State.enter, ← sound.seen (free rfl) here rfl]
    exact reports_one (.get table fd) (sound.finish (free rfl) here rfl _ _) rfl
  | exist fd =>
    rw [State.enter, OpenFileMap.exist, ← sound.seen (free rfl) here rfl]
    exact reports_one (.exist table fd) (sound.finish (free rfl) here rfl _ _) rfl
  | remove fd =>
    rw [State.enter, OpenFileMap.exist, ← sound.seen (free rfl) here rfl]
    split
    next bound =>
      apply reports_nothing _ rfl
      refine sound.erase (free rfl) here rfl none ⟨?_, Option.isSome_iff_ne_none.mp bound⟩
      rw [get_erase, if_pos rfl]
    next unbound =>
      rw [Bool.not_eq_true, Option.isSome_eq_false_iff, Option.isNone_iff_eq_none] at unbound
      have effect := Effect.remove table fd
      rw [unbound, Function.update_eq_self_iff.mpr unbound.symm] at effect
      exact reports_one effect (sound.finish (free rfl) here rfl _ _) rfl
  | dup oldfd =>
    have seen := sound.seen (free rfl) here rfl oldfd
    rw [State.enter]
    split
    next unbound => exact reports_one (.dupUnbound (seen.trans unbound)) (sound.finish (free rfl) here rfl _ _) rfl
    next file bound =>
      apply reports_nothing _ rfl
      refine sound.lock (free rfl) here rfl _ rfl rfl fun other member => ?_
      cases member
      exact bound
  | dup2 oldfd newfd =>
    have seen := sound.seen (free rfl) here rfl oldfd
    rw [State.enter]
    split
    next unbound => exact reports_one (.dup2Unbound (seen.trans unbound) newfd) (sound.finish (free rfl) here rfl _ _) rfl
    next file bound =>
      split
      next same =>
        have effect := Effect.dup2 (seen.trans bound) newfd
        rw [Function.update_eq_self_iff.mpr (by rw [← same, seen, bound])] at effect
        exact reports_one effect (sound.finish (free rfl) here rfl _ _) rfl
      next different =>
        split
        next =>
          apply reports_nothing _ rfl
          refine sound.erase (free rfl) here rfl _ ⟨?_, ?_⟩
          · rw [get_erase, if_pos rfl]
          · rw [get_erase, if_neg different, bound]
        next unbound =>
          rw [OpenFileMap.exist, Bool.not_eq_true, Option.isSome_eq_false_iff, Option.isNone_iff_eq_none] at unbound
          exact reports_nothing (sound.lock (free rfl) here rfl _ rfl rfl ⟨unbound, bound⟩) rfl

/-- The end of a `remove`, or its return into `dup2`. -/
theorem Sound.leave {before : Phase φ} {rest : Option (Int × φ)} (here : state.phases i = before) (held : locked before = true)
    (inside : hole before = some fd) (relies : Relies state.map table (.erased fd rest)) (free : state.available i = true) :
    Reports state (state.removed i fd rest) table := by
  cases rest with
  | none =>
    have effect := Effect.remove table fd
    rw [Option.isSome_iff_ne_none.mpr relies.2] at effect
    exact reports_one effect (sound.removed free (by rw [here, inside]) relies.1) rfl
  | some moving => exact reports_nothing (sound.go here _ held.symm (.inl rfl) inside.symm relies) rfl

/-- The end of an `add` or a `dup`. -/
theorem Sound.bindNumber {taker : Taker φ} (here : state.phases i = .inserting taker fd) (free : state.available i = true) :
    Reports state ({ state with map := state.map.insert fd taker.file }.finish i taker.call (.fd (.ok fd))) table := by
  have relies := sound.relies i
  rw [here] at relies
  have mine : fd ∈ number (state.phases i) := by
    rw [here]
    rfl
  have now : Sound ({ state with map := state.map.insert fd taker.file }.finish i taker.call (.fd (.ok fd)))
      (Function.update table fd (some taker.file)) := by
    refine sound.insert free ?_ relies.2 ?_ ?_ _ _ _
    · intro other _
      rw [here]
      exact (Option.some_ne_none other).symm
    · intro j other
      exact sound.apart i j other.symm fd mine
    · intro unchecked
      exact (sound.pending unchecked i fd mine).1
  have unbound := (sound.seen free here rfl fd).trans relies.2
  apply reports_one _ now rfl
  obtain ⟨oldfd, file⟩ := taker
  cases oldfd with
  | none => exact .add file unbound
  | some oldfd => exact .dup ((sound.seen free here rfl oldfd).trans (relies.1 oldfd rfl)) unbound

/-- The end of a `dup2`. -/
theorem Sound.bindTarget {oldfd newfd : Int} (here : state.phases i = .binding oldfd newfd file)
    (careful : CarefulAt state i (.binding oldfd newfd file)) (free : state.available i = true) :
    Reports state ({ state with map := state.map.insert newfd file }.finish i (.dup2 oldfd newfd) (.fd (.ok newfd))) table := by
  have relies := sound.relies i
  rw [here] at relies
  obtain ⟨⟨unbound, bound⟩, behind⟩ := relies
  obtain ⟨apart, last⟩ := careful
  have seen : table oldfd = some file := by
    rw [← bound]
    apply sound.shown_within free
    rw [here]
    intro same
    cases same
    rw [unbound] at bound
    cases bound
  refine reports_one (.dup2 seen newfd) (sound.insert free ?_ unbound (fun j _ => apart j) ?_ _ _ _) rfl
  · intro other different same
    rw [here] at same
    exact different (Option.some.inj same).symm
  · intro unchecked
    apply lt_of_le_of_ne (behind unchecked)
    intro same
    rw [last same] at unchecked
    cases unchecked

/-- Every step of every phase. -/
theorem Sound.advance {phase : Phase φ} (here : state.phases i = phase) (careful : CarefulAt state i phase)
    (free : needsMutex phase = true → state.available i = true) : Reports state (state.advance i phase) table := by
  have relies := sound.relies i
  rw [here] at relies
  have held : locked phase = true → state.available i = true := by
    intro held
    rw [← here] at held
    exact available_iff.mpr (.inr ((sound.owner i).mp held))
  cases phase with
  | idle => exact reports_nothing sound rfl
  | called call => exact sound.enter here careful free
  | allocating taker | again taker =>
    exact reports_nothing (sound.generate here (fun _ => rfl) (fun _ => rfl) rfl (fun _ => relies) careful) rfl
  | generated taker fd =>
    have mine : fd ∈ number (state.phases i) := by
      rw [here]
      rfl
    rw [State.advance]
    split
    next => exact reports_nothing (sound.go here _ rfl (.inr rfl) rfl relies) rfl
    next unchecked =>
      have unbound := (sound.pending (Bool.eq_false_iff.mpr unchecked) i fd mine).2
      exact reports_nothing (sound.go here _ rfl (.inr rfl) rfl ⟨relies, unbound⟩) rfl
  | searching taker fd =>
    rw [State.advance]
    split
    next => exact reports_nothing (sound.go here _ rfl (.inl rfl) rfl relies) rfl
    next unbound =>
      rw [OpenFileMap.exist, Bool.not_eq_true, Option.isSome_eq_false_iff, Option.isNone_iff_eq_none] at unbound
      exact reports_nothing (sound.go here _ rfl (.inr rfl) rfl ⟨relies, unbound⟩) rfl
  | inserting taker fd => exact sound.bindNumber here (free rfl)
  | erased fd rest =>
    rw [State.advance]
    split
    next last =>
      rw [Bool.and_eq_true] at last
      have nothing := get_of_isEmpty last.2
      apply reports_nothing _ rfl
      refine sound.go here _ rfl (.inl rfl) rfl ?_
      cases rest with
      | none => exact ⟨relies.1, relies.2, nothing⟩
      | some => exact ⟨relies, nothing⟩
    next => exact sound.leave here rfl rfl relies (held rfl)
  | resetting fd rest =>
    cases rest with
    | none => exact (sound.resetNeeded relies.2.2 careful).leave here rfl rfl ⟨relies.1, relies.2.1⟩ (held rfl)
    | some => exact (sound.resetNeeded relies.2 careful).leave here rfl rfl relies.1 (held rfl)
  | comparing oldfd newfd file =>
    rw [State.advance]
    split
    next => exact reports_nothing (sound.go here _ rfl (.inl rfl) rfl relies) rfl
    next behind =>
      have range := sound.range
      apply reports_nothing _ rfl
      refine sound.go here _ rfl (.inl rfl) rfl ⟨relies, fun _ => ?_⟩
      omega
  | flagging oldfd newfd file =>
    apply reports_nothing _ rfl
    refine sound.setNeeded.go here _ rfl (.inl rfl) rfl ⟨relies, fun unchecked => ?_⟩
    cases unchecked
  | binding oldfd newfd file => exact sound.bindTarget here careful (held rfl)

/-- A call begins, or a thread makes a step or waits. -/
theorem Sound.next {event : Event ι φ} (careful : Careful state event) : Reports state (state.next event) table := by
  cases event with
  | call j call =>
    rw [State.next]
    split
    next idle => exact reports_nothing (sound.go idle (.called call) rfl (.inl rfl) rfl trivial) rfl
    next => exact reports_nothing sound rfl
  | step j =>
    rw [State.next]
    split
    next => exact reports_nothing sound rfl
    next free =>
      apply sound.advance rfl careful
      intro needs
      simpa [needs] using free

end Calls

omit [DecidableEq ι] in
/-- Between the calls that hold the lock, the table is what everybody sees. -/
theorem Sound.settled {table : Table φ} (sound : Sound state table) (free : state.filesMutex = none) (fd : Int) :
    state.map.get fd = table fd := by
  symm
  apply sound.shown fd
  intro i
  have unlocked : locked (state.phases i) = false := by
    rw [Bool.eq_false_iff]
    intro held
    have owned := (sound.owner i).mp held
    rw [free] at owned
    cases owned
  rw [hole_of_unlocked unlocked]
  exact (Option.some_ne_none fd).symm

theorem sound_run {events : List (Event ι φ)} (careful : Admits State.next Careful events State.initial) :
    ∃ table, History Effect (fun _ => none) (answers (events.foldl State.next State.initial)) table ∧
      Sound (events.foldl State.next State.initial) table :=
  history_run (fun _ _ _ careful sound => Sound.next sound careful) .nil sound_initial careful

/-- Whatever calls the threads make and however their steps interleave, the calls return, in
the order in which they do, what they would return if one was handled after the other. -/
theorem threads_share_one_table {events : List (Event ι φ)} (careful : Admits State.next Careful events State.initial) :
    ∃ table, History Effect (fun _ => none) (answers (events.foldl State.next State.initial)) table ∧
      ((events.foldl State.next State.initial).filesMutex = none →
        ∀ fd, (events.foldl State.next State.initial).map.get fd = table fd) := by
  obtain ⟨table, history, sound⟩ := sound_run careful
  exact ⟨table, history, sound.settled⟩

/-- Two threads add files at the same time, one of them then duplicates its descriptor ahead
of the index, and the other meets that number in its search. -/
theorem threads_share_one_table_search : ∃ events : List (Event (Fin 2) Char),
    answers (events.foldl State.next State.initial) = [(.add 'b', .fd (.ok 10001)), (.add 'a', .fd (.ok 10000)),
      (.dup2 10000 10003, .fd (.ok 10003)), (.add 'c', .fd (.ok 10002)), (.add 'd', .fd (.ok 10004)), (.get 10003, .file (some 'a'))] ∧
    ∃ table, History Effect (fun _ => none) (answers (events.foldl State.next State.initial)) table := by
  let events : List (Event (Fin 2) Char) :=
    [.call 0 (.add 'a'), .call 1 (.add 'b'), .step 0, .step 1, .step 1, .step 0, .step 1, .step 0,
      .call 0 (.dup2 10000 10003), .step 0, .step 0, .step 0, .step 0, .call 1 (.add 'c'), .step 1, .step 1, .step 1, .step 1,
      .call 1 (.add 'd'), .step 1, .step 1, .step 1, .step 1, .step 1, .step 1, .call 0 (.get 10003), .step 0]
  obtain ⟨table, history, _⟩ := @threads_share_one_table (Fin 2) Char _ events (by decide)
  exact ⟨events, by decide +kernel, table, history⟩

section Frame

theorem phases_finish (call : OpenFileThreads.Call φ) (result : Result φ) {j : ι} (other : j ≠ i) :
    (state.finish i call result).phases j = state.phases j :=
  Function.update_of_ne other _ _

theorem phases_removed (rest : Option (Int × φ)) {j : ι} (other : j ≠ i) : (state.removed i fd rest).phases j = state.phases j := by
  cases rest with
  | none => exact phases_finish _ _ other
  | some => exact Function.update_of_ne other _ _

theorem phases_advance (phase : Phase φ) {j : ι} (other : j ≠ i) : (state.advance i phase).phases j = state.phases j := by
  have moved : ∀ {after : State ι φ} {next : Phase φ}, after.phases = Function.update state.phases i next →
      after.phases j = state.phases j :=
    fun same => by rw [same, Function.update_of_ne other]
  cases phase with
  | idle => rfl
  | called call =>
    rw [State.advance]
    cases call with
    | get | exist | add => exact moved rfl
    | remove fd =>
      rw [State.enter]
      split <;> exact moved rfl
    | dup oldfd =>
      rw [State.enter]
      split <;> exact moved rfl
    | dup2 oldfd newfd =>
      rw [State.enter]
      split
      next => exact moved rfl
      next =>
        split
        next => exact moved rfl
        next => split <;> exact moved rfl
  | allocating | again | generated | searching | inserting | flagging | binding => exact moved rfl
  | erased fd rest =>
    rw [State.advance]
    split
    next => exact moved rfl
    next => exact phases_removed rest other
  | resetting fd rest => exact phases_removed rest other
  | comparing oldfd newfd file =>
    rw [State.advance]
    split <;> exact moved rfl

/-- A thread in a call stays where it is until it makes a step itself. -/
theorem phases_next {event : Event ι φ} {j : ι} (busy : state.phases j ≠ .idle) (waits : event ≠ .step j) :
    (state.next event).phases j = state.phases j := by
  cases event with
  | call k call =>
    rw [State.next]
    split
    next idle =>
      have other : j ≠ k := by
        rintro rfl
        exact busy idle
      exact Function.update_of_ne other _ _
    next => rfl
  | step k =>
    have other : j ≠ k := by
      rintro rfl
      exact waits rfl
    rw [State.next]
    split
    next => rfl
    next => exact phases_advance _ other

theorem phases_run {events : List (Event ι φ)} {j : ι} (busy : state.phases j ≠ .idle) (waits : ∀ event ∈ events, event ≠ .step j) :
    (events.foldl State.next state).phases j = state.phases j := by
  induction events generalizing state with
  | nil => rfl
  | cons event events ih =>
    obtain ⟨first, others⟩ := List.forall_mem_cons.mp waits
    have still := phases_next busy first
    rw [List.foldl_cons, ih (still ▸ busy) others, still]

end Frame

/-- The last step of an `add` returns its number in any case, and binds it if it is still free. -/
theorem next_inserting (here : state.phases i = .inserting ⟨none, file⟩ fd) (free : state.available i = true) :
    answers (state.next (.step i)) = answers state ++ [(.add file, .fd (.ok fd))] ∧
      ∀ other, (state.next (.step i)).map.get other = if other = fd then (state.map.get fd).or (some file) else state.map.get other := by
  have step : state.next (.step i) = { state with map := state.map.insert fd file }.finish i (.add file) (.fd (.ok fd)) := by
    rw [State.next, here, free, Bool.not_true, Bool.and_false, if_neg Bool.false_ne_true]
    rfl
  rw [step]
  constructor
  · rw [answers, State.finish, answers, List.map_append]
    rfl
  · intro other
    change (state.map.insert fd file).get other = _
    rw [get_insert]
    by_cases same : other = fd
    · subst same
      cases state.map.get other <;> simp
    · simp [same]

/-- Two threads: one has generated 10001 for its file and waits, the other is about to put its
own descriptor there. -/
def race : List (Event (Fin 2) Char) :=
  [.call 0 (.add 'a'), .step 0, .step 0, .step 0, .call 1 (.add 'b'), .step 1, .step 1, .call 0 (.dup2 10000 10001), .step 0, .step 0]

end GekkoFwd.Proofs.OpenFileSharing
