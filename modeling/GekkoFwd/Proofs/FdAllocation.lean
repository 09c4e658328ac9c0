import GekkoFwd.OpenFileMap

/-! Which descriptors the open file map hands out. As long as it does not look for
free ones, the bound descriptors have to lie below the next index; `dup2` checks this
for every target but the next index itself. -/

namespace GekkoFwd.Proofs.FdAllocation
open OpenFileMap

variable {φ : Type} {map after : OpenFileMap φ} {fd newfd oldfd : Int} {file : φ}

section Lookups

theorem get_insert (map : OpenFileMap φ) (fd : Int) (file : φ) (other : Int) :
    (map.insert fd file).get other = if map.get fd = none ∧ other = fd then some file else map.get other := by
  rw [OpenFileMap.insert, exist]
  cases bound : map.get fd with
  | some file => simp
  | none =>
    by_cases same : other = fd
    · subst same
      simp [OpenFileMap.get]
    · simp [OpenFileMap.get, same]

theorem fdIdx_insert (map : OpenFileMap φ) (fd : Int) (file : φ) : (map.insert fd file).fdIdx = map.fdIdx := by
  rw [OpenFileMap.insert]
  split <;> rfl

theorem fdValidationNeeded_insert (map : OpenFileMap φ) (fd : Int) (file : φ) :
    (map.insert fd file).fdValidationNeeded = map.fdValidationNeeded := by
  rw [OpenFileMap.insert]
  split <;> rfl

theorem get_remove (map : OpenFileMap φ) (fd other : Int) :
    (map.remove fd).2.get other = if other = fd then none else map.get other := by
  rw [OpenFileMap.remove]
  by_cases same : other = fd
  · subst same
    split
    next => simp [OpenFileMap.get]
    next unbound => simpa [exist, OpenFileMap.get] using unbound
  · split
    next => simp [OpenFileMap.get, same]
    next => rfl

theorem fdIdx_remove (map : OpenFileMap φ) (fd : Int) : (map.remove fd).2.fdIdx = map.fdIdx := by
  rw [OpenFileMap.remove]
  split <;> rfl

/-- Checks are given up only when nothing is bound any more. -/
theorem fdValidationNeeded_remove (needed : map.fdValidationNeeded = true) :
    (map.remove fd).2.fdValidationNeeded = true ∨ ∀ other, (map.remove fd).2.get other = none := by
  rw [OpenFileMap.remove]
  split
  next =>
    cases empty : (map.files.erase fd).keys.isEmpty with
    | true =>
      right
      intro other
      refine AList.lookup_eq_none.mpr fun member => ?_
      change other ∈ (map.files.erase fd).keys at member
      rw [List.isEmpty_iff.mp empty] at member
      cases member
    | false =>
      left
      change (map.fdValidationNeeded && !(map.files.erase fd).keys.isEmpty) = true
      rw [needed, empty]
      rfl
  next => exact .inl needed

end Lookups

/-- Indices that are still handed out, at once or after the index has wrapped. -/
def Generated (map : OpenFileMap φ) (fd : Int) : Prop := (map.fdIdx ≤ fd ∨ 100000 ≤ fd) ∧ fd < intMax

def HasRoom (map : OpenFileMap φ) : Prop := ∃ fd, Generated map fd ∧ map.get fd = none

/-- The next index is in range. Unless descriptors are checked the bound ones lie below
it, except for one that comes after all indices. -/
structure Sound (map : OpenFileMap φ) : Prop where
  range : 10000 ≤ map.fdIdx ∧ map.fdIdx ≤ intMax
  below : map.fdValidationNeeded = false → map.fdIdx = intMax ∨ ∀ fd, map.get fd ≠ none → fd < map.fdIdx

theorem sound_empty : Sound (OpenFileMap.empty : OpenFileMap φ) :=
  ⟨⟨Int.le_refl 10000, by change (10000 : Int) ≤ intMax; decide⟩, fun _ => .inr fun fd bound => absurd (AList.lookup_empty fd) bound⟩

section Search

/-- What the search keeps: it only moves the index on. -/
structure Searching (map : OpenFileMap φ) (state : Int × OpenFileMap φ) : Prop where
  files : state.2.files = map.files
  checking : state.2.fdValidationNeeded = true
  next : state.2.fdIdx = state.1 + 1
  range : 10000 ≤ state.1 ∧ state.1 < intMax

/-- The rounds until the search is at a free index at the latest. -/
def distance (free : Int) (state : Int × OpenFileMap φ) : Nat :=
  if state.1 ≤ free then (free - state.1).toNat else (intMax - state.1 + (free - 100000) + 1).toNat

theorem Searching.round {state : Int × OpenFileMap φ} (searching : Searching map state) : Searching map state.2.generateFdIdx := by
  obtain ⟨files, checking, next, range⟩ := searching
  have bound : intMax = 2147483647 := rfl
  rw [generateFdIdx]
  split
  next => exact ⟨files, rfl, rfl, by omega⟩
  next => exact ⟨files, checking, rfl, by omega⟩

theorem Searching.distance_lt {free : Int} {state : Int × OpenFileMap φ} (searching : Searching map state) (inside : free < intMax)
    (ahead : state.1 ≤ free ∨ 100000 ≤ free) (different : state.1 ≠ free) :
    ((state.2.generateFdIdx).1 ≤ free ∨ 100000 ≤ free) ∧ distance free state.2.generateFdIdx < distance free state := by
  obtain ⟨_, _, next, range⟩ := searching
  have bound : intMax = 2147483647 := rfl
  rw [generateFdIdx]
  split
  next =>
    refine ⟨by omega, ?_⟩
    simp only [distance]
    split <;> split <;> omega
  next =>
    refine ⟨by omega, ?_⟩
    simp only [distance]
    split <;> split <;> omega

theorem searching_generateFdIdx (range : 10000 ≤ map.fdIdx ∧ map.fdIdx ≤ intMax)
    (checked : map.fdValidationNeeded = true ∨ map.fdIdx = intMax) : Searching map map.generateFdIdx := by
  have bound : intMax = 2147483647 := rfl
  rw [generateFdIdx]
  split
  next => exact ⟨rfl, rfl, rfl, by omega⟩
  next inside => exact ⟨rfl, checked.resolve_right inside, rfl, by omega⟩

theorem safeGenerateFdIdx_checked (started : Searching map map.generateFdIdx) : map.safeGenerateFdIdx =
    WhileLoop.run (fun state => state.2.exist state.1) (fun state => state.2.generateFdIdx) map.generateFdIdx := by
  simp only [safeGenerateFdIdx, started.checking, if_true]

theorem safeGenerateFdIdx_unchecked (unchecked : map.fdValidationNeeded = false) (inside : map.fdIdx ≠ intMax) :
    map.safeGenerateFdIdx = some (map.fdIdx, { map with fdIdx := map.fdIdx + 1 }) := by
  simp only [safeGenerateFdIdx, generateFdIdx, if_neg inside, unchecked, Bool.false_eq_true, if_false]

/-- The descriptor that a sound map hands out is not bound. -/
theorem Sound.safeGenerateFdIdx (sound : Sound map) (ended : map.safeGenerateFdIdx = some (fd, after)) :
    map.get fd = none ∧ after.files = map.files ∧ (10000 ≤ after.fdIdx ∧ after.fdIdx ≤ intMax) ∧
      (after.fdValidationNeeded = false → fd < after.fdIdx ∧ ∀ other, map.get other ≠ none → other < after.fdIdx) := by
  by_cases checked : map.fdValidationNeeded = true ∨ map.fdIdx = intMax
  · have started := searching_generateFdIdx sound.range checked
    rw [safeGenerateFdIdx_checked started] at ended
    obtain ⟨⟨files, checking, next, range⟩, stopped⟩ := WhileLoop.run_partial (Searching map)
      (fun _ searching _ => searching.round) started ended
    dsimp only at files checking next range stopped
    refine ⟨?_, files, by omega, fun off => by rw [checking] at off; cases off⟩
    simpa [exist, OpenFileMap.get, files] using stopped
  · rw [not_or, Bool.not_eq_true] at checked
    obtain ⟨unchecked, inside⟩ := checked
    have below := (sound.below unchecked).resolve_left inside
    have range := sound.range
    rw [safeGenerateFdIdx_unchecked unchecked inside] at ended
    cases ended
    refine ⟨?_, rfl, by dsimp only; omega, fun _ => ⟨Int.lt_succ _, fun other bound => Int.lt_trans (below other bound) (Int.lt_succ _)⟩⟩
    by_contra bound
    exact Int.lt_irrefl _ (below map.fdIdx bound)

/-- The index that follows another one. -/
def following (fd : Int) : Int := if fd + 1 = intMax then 100000 else fd + 1

/-- The indices from the next one on, up to the first that is not bound. -/
inductive Upcoming (map : OpenFileMap φ) : Int → Prop where
  | first : Upcoming map map.generateFdIdx.1
  | next {fd : Int} (before : Upcoming map fd) (bound : map.exist fd = true) : Upcoming map (following fd)

theorem Sound.upcoming (sound : Sound map) (ended : map.safeGenerateFdIdx = some (fd, after)) : Upcoming map fd := by
  by_cases checked : map.fdValidationNeeded = true ∨ map.fdIdx = intMax
  · have started := searching_generateFdIdx sound.range checked
    rw [safeGenerateFdIdx_checked started] at ended
    have keeps : ∀ state : Int × OpenFileMap φ, Searching map state ∧ Upcoming map state.1 → state.2.exist state.1 = true →
        Searching map state.2.generateFdIdx ∧ Upcoming map state.2.generateFdIdx.1 := by
      rintro state ⟨searching, upcoming⟩ taken
      have bound : map.exist state.1 = true := by
        rw [exist, OpenFileMap.get, ← searching.files]
        exact taken
      have next : state.2.generateFdIdx.1 = following state.1 := by
        rw [generateFdIdx, following, ← searching.next]
        split <;> rfl
      exact ⟨searching.round, next ▸ upcoming.next bound⟩
    exact (WhileLoop.run_partial _ keeps ⟨started, .first⟩ ended).1.2
  · rw [not_or, Bool.not_eq_true] at checked
    rw [safeGenerateFdIdx_unchecked checked.1 checked.2] at ended
    cases ended
    have first : map.generateFdIdx.1 = map.fdIdx := by
      rw [generateFdIdx, if_neg checked.2]
    exact first ▸ .first

theorem Upcoming.least (upcoming : Upcoming map fd) (sound : Sound map) : 10000 ≤ fd := by
  induction upcoming with
  | first =>
    have range := sound.range
    rw [generateFdIdx]
    split <;> omega
  | next _ _ ih =>
    rw [following]
    split <;> omega

/-- With room the search ends. -/
theorem Sound.safeGenerateFdIdx_returns (sound : Sound map) (room : HasRoom map) : ∃ generated, map.safeGenerateFdIdx = some generated := by
  by_cases checked : map.fdValidationNeeded = true ∨ map.fdIdx = intMax
  · obtain ⟨free, ⟨ahead, inside⟩, unbound⟩ := room
    have started := searching_generateFdIdx sound.range checked
    have first : (map.generateFdIdx).1 ≤ free ∨ 100000 ≤ free := by
      rw [generateFdIdx]
      split
      next => omega
      next => exact ahead
    have keeps : ∀ state : Int × OpenFileMap φ, Searching map state ∧ (state.1 ≤ free ∨ 100000 ≤ free) → state.2.exist state.1 = true →
        (Searching map state.2.generateFdIdx ∧ ((state.2.generateFdIdx).1 ≤ free ∨ 100000 ≤ free)) ∧
          distance free state.2.generateFdIdx < distance free state := by
      rintro state ⟨searching, ahead⟩ taken
      have different : state.1 ≠ free := by
        intro same
        rw [exist, OpenFileMap.get, searching.files, same] at taken
        rw [OpenFileMap.get] at unbound
        rw [unbound] at taken
        cases taken
      obtain ⟨still, lower⟩ := searching.distance_lt inside ahead different
      exact ⟨⟨searching.round, still⟩, lower⟩
    obtain ⟨final, ended, _⟩ := WhileLoop.run_total _ (distance free) keeps ⟨started, first⟩
    rw [safeGenerateFdIdx_checked started]
    exact ⟨final, ended⟩
  · rw [not_or, Bool.not_eq_true] at checked
    exact ⟨_, safeGenerateFdIdx_unchecked checked.1 checked.2⟩

end Search

/-- What an allocation is to do: the descriptor was not bound, is bound to the file, and
no other binding has changed. -/
structure Allocates (map : OpenFileMap φ) (file : φ) (fd : Int) (after : OpenFileMap φ) : Prop where
  unbound : map.get fd = none
  bound : after.get fd = some file
  others : ∀ other, other ≠ fd → after.get other = map.get other

theorem Sound.add_upcoming (sound : Sound map) (ran : map.add file = some (fd, after)) : Upcoming map fd := by
  obtain ⟨⟨fd, searched⟩, ended, same⟩ := Option.map_eq_some_iff.mp ran
  cases same
  exact sound.upcoming ended

theorem Sound.add (sound : Sound map) (ran : map.add file = some (fd, after)) : Allocates map file fd after ∧ Sound after := by
  obtain ⟨⟨fd, searched⟩, ended, same⟩ := Option.map_eq_some_iff.mp ran
  cases same
  dsimp only at ran ⊢
  obtain ⟨unbound, files, range, below⟩ := sound.safeGenerateFdIdx ended
  have same : ∀ other, searched.get other = map.get other := fun other => by rw [OpenFileMap.get, files, OpenFileMap.get]
  have now : ∀ other, (searched.insert fd file).get other = if other = fd then some file else map.get other := by
    intro other
    rw [get_insert, same, same]
    simp [unbound]
  refine ⟨⟨unbound, ?_, fun other different => ?_⟩, ⟨?_, fun unchecked => .inr fun other bound => ?_⟩⟩
  · rw [now, if_pos rfl]
  · rw [now, if_neg different]
  · rw [fdIdx_insert]
    exact range
  · rw [fdValidationNeeded_insert] at unchecked
    rw [fdIdx_insert]
    by_cases new : other = fd
    · rw [new]
      exact (below unchecked).1
    · rw [now, if_neg new] at bound
      exact (below unchecked).2 other bound

theorem Sound.add_returns (sound : Sound map) (room : HasRoom map) (file : φ) : ∃ fd after, map.add file = some (fd, after) := by
  obtain ⟨⟨fd, after⟩, ended⟩ := sound.safeGenerateFdIdx_returns room
  exact ⟨fd, _, by rw [OpenFileMap.add, ended, Option.map_some]⟩

theorem Sound.remove (sound : Sound map) (fd : Int) : Sound (map.remove fd).2 := by
  refine ⟨by rw [fdIdx_remove]; exact sound.range, fun unchecked => ?_⟩
  rw [fdIdx_remove]
  cases needed : map.fdValidationNeeded with
  | true =>
    rcases fdValidationNeeded_remove needed with checking | empty
    · rw [unchecked] at checking
      cases checking
    · exact .inr fun other bound => absurd (empty other) bound
  | false =>
    refine (sound.below needed).imp_right fun below other bound => below other ?_
    rw [get_remove] at bound
    split at bound
    next => exact absurd rfl bound
    next => exact bound

private theorem remove_if_exist (map : OpenFileMap φ) (fd : Int) :
    (if map.exist fd then (map.remove fd).2 else map) = (map.remove fd).2 := by
  rw [OpenFileMap.remove]
  split <;> rfl

/-- A `dup2` binds its target and may turn the checks on. -/
theorem dup2_bound (bound : map.get oldfd = some file) (different : oldfd ≠ newfd) :
    ∃ after, map.dup2 oldfd newfd = (.ok newfd, after) ∧ after.fdIdx = map.fdIdx ∧
      (∀ other, after.get other = if other = newfd then some file else map.get other) ∧
      after.fdValidationNeeded = (map.fdValidationNeeded || decide (map.fdIdx < newfd ∧ newfd ≠ 0 ∧ newfd ≠ 1 ∧ newfd ≠ 2)) := by
  have flag : (map.remove newfd).2.fdValidationNeeded = map.fdValidationNeeded := by
    cases needed : map.fdValidationNeeded with
    | true =>
      refine (fdValidationNeeded_remove needed).resolve_right fun empty => ?_
      have kept := empty oldfd
      rw [get_remove, if_neg different, bound] at kept
      cases kept
    | false =>
      rw [OpenFileMap.remove]
      split
      next => simp [needed]
      next => exact needed
  refine ⟨OpenFileMap.insert ⟨(map.remove newfd).2.files, (map.remove newfd).2.fdIdx, (map.remove newfd).2.fdValidationNeeded ||
    decide ((map.remove newfd).2.fdIdx < newfd ∧ newfd ≠ 0 ∧ newfd ≠ 1 ∧ newfd ≠ 2)⟩ newfd file, ?_, ?_, fun other => ?_, ?_⟩
  · rw [dup2, bound]
    simp only [if_neg different, remove_if_exist]
  · rw [fdIdx_insert]
    exact fdIdx_remove map newfd
  · rw [get_insert]
    change (if (map.remove newfd).2.get newfd = none ∧ other = newfd then some file else (map.remove newfd).2.get other) = _
    rw [get_remove, get_remove, if_pos rfl]
    by_cases same : other = newfd <;> simp [same]
  · rw [fdValidationNeeded_insert, flag, fdIdx_remove]

/-- The target of a `dup2` that the map will not mistake for a free index later. -/
def Careful (map : OpenFileMap φ) (oldfd newfd : Int) : Prop :=
  map.get oldfd ≠ none → oldfd ≠ newfd → map.fdValidationNeeded = false → map.fdIdx < intMax → newfd ≠ map.fdIdx

theorem Sound.dup2 (sound : Sound map) (careful : Careful map oldfd newfd) : Sound (map.dup2 oldfd newfd).2 := by
  cases bound : map.get oldfd with
  | none =>
    rw [OpenFileMap.dup2, bound]
    exact sound
  | some file =>
    by_cases different : oldfd = newfd
    · rw [OpenFileMap.dup2, bound]
      simpa only [if_pos different] using sound
    · obtain ⟨after, ran, index, now, flag⟩ := dup2_bound bound different
      rw [ran]
      refine ⟨by rw [index]; exact sound.range, fun unchecked => ?_⟩
      rw [flag, Bool.or_eq_false_iff] at unchecked
      have range := sound.range
      rw [index]
      refine (or_iff_not_imp_left.mpr fun inside other held => ?_)
      have apart := careful (by rw [bound]; exact nofun) different unchecked.1 (by omega)
      rw [now] at held
      split at held
      next same =>
        have behind := of_decide_eq_false unchecked.2
        omega
      next => exact (sound.below unchecked.1).resolve_left inside other held

/-- A `dup2` onto the next index, which is then handed out although it is bound. -/
theorem bound_of_careless (careless : ¬Careful map oldfd newfd) (file : φ) :
    ∃ fd after, (map.dup2 oldfd newfd).2.add file = some (fd, after) ∧ (map.dup2 oldfd newfd).2.get fd ≠ none := by
  simp only [Careful, not_forall, not_not] at careless
  obtain ⟨held, different, unchecked, inside, same⟩ := careless
  obtain ⟨old, bound⟩ := Option.ne_none_iff_exists'.mp held
  obtain ⟨after, ran, index, now, flag⟩ := dup2_bound bound different
  have ahead : ¬(map.fdIdx < newfd ∧ newfd ≠ 0 ∧ newfd ≠ 1 ∧ newfd ≠ 2) := by omega
  rw [unchecked, decide_eq_false ahead, Bool.or_self] at flag
  rw [ran]
  refine ⟨map.fdIdx, ({ after with fdIdx := map.fdIdx + 1 } : OpenFileMap φ).insert map.fdIdx file, ?_, ?_⟩
  · rw [OpenFileMap.add, safeGenerateFdIdx_unchecked flag (by rw [index]; exact Int.ne_of_lt inside), index]
    rfl
  · rw [now, if_pos same.symm]
    exact nofun

/-- The calls on the map. -/
inductive Call (φ : Type) where
  | add (file : φ)
  | dup (oldfd : Int)
  | dup2 (oldfd newfd : Int)
  | remove (fd : Int)

/-- The map after a call, unless the call never returns. -/
def Call.run (map : OpenFileMap φ) : Call φ → Option (OpenFileMap φ)
  | .add file => (map.add file).map Prod.snd
  | .dup oldfd => (map.dup oldfd).map Prod.snd
  | .dup2 oldfd newfd => some (map.dup2 oldfd newfd).2
  | .remove fd => some (map.remove fd).2

def Call.Careful (map : OpenFileMap φ) : Call φ → Prop
  | .dup2 oldfd newfd => FdAllocation.Careful map oldfd newfd
  | .add _ | .dup _ | .remove _ => True

/-- The next allocation is right, and returns if there is room for it. -/
structure Fresh (map : OpenFileMap φ) : Prop where
  add : ∀ file fd after, map.add file = some (fd, after) → Allocates map file fd after
  dup : ∀ oldfd file fd after, map.get oldfd = some file → map.dup oldfd = some (.ok fd, after) → Allocates map file fd after
  returns : HasRoom map → (∀ file, ∃ fd after, map.add file = some (fd, after)) ∧
    ∀ oldfd file, map.get oldfd = some file → ∃ fd after, map.dup oldfd = some (.ok fd, after)

/-- The maps that calls of the given kind lead to. -/
inductive Reached (admitted : OpenFileMap φ → Call φ → Prop) : OpenFileMap φ → Prop where
  | empty : Reached admitted .empty
  | call {map after : OpenFileMap φ} {call : Call φ} (before : Reached admitted map) (admits : admitted map call)
      (returned : call.run map = some after) : Reached admitted after

theorem dup_eq_add (bound : map.get oldfd = some file) :
    map.dup oldfd = (map.add file).map fun added => (.ok added.1, added.2) := by
  rw [OpenFileMap.dup, bound]

theorem Sound.fresh (sound : Sound map) : Fresh map := by
  refine ⟨fun file fd after ran => (sound.add ran).1, fun oldfd file fd after bound ran => ?_, fun room => ⟨sound.add_returns room, ?_⟩⟩
  · rw [dup_eq_add bound] at ran
    obtain ⟨⟨_, _⟩, added, same⟩ := Option.map_eq_some_iff.mp ran
    cases same
    exact (sound.add added).1
  · intro oldfd file bound
    obtain ⟨fd, after, added⟩ := sound.add_returns room file
    exact ⟨fd, after, by rw [dup_eq_add bound, added, Option.map_some]⟩

theorem Sound.call (sound : Sound map) {call : Call φ} (careful : call.Careful map) (returned : call.run map = some after) :
    Sound after := by
  cases call with
  | add file =>
    obtain ⟨⟨fd, _⟩, added, rfl⟩ := Option.map_eq_some_iff.mp returned
    exact (sound.add added).2
  | dup oldfd =>
    obtain ⟨⟨result, _⟩, ran, rfl⟩ := Option.map_eq_some_iff.mp returned
    cases bound : map.get oldfd with
    | none =>
      rw [OpenFileMap.dup, bound] at ran
      cases ran
      exact sound
    | some file =>
      rw [dup_eq_add bound] at ran
      obtain ⟨⟨_, _⟩, added, same⟩ := Option.map_eq_some_iff.mp ran
      cases same
      exact (sound.add added).2
  | dup2 oldfd newfd =>
    cases returned
    exact sound.dup2 careful
  | remove fd =>
    cases returned
    exact sound.remove fd

theorem Reached.sound (reached : Reached (fun map call => call.Careful map) map) : Sound map := by
  induction reached with
  | empty => exact sound_empty
  | call _ careful returned ih => exact ih.call careful returned

/-- No descriptor is handed out twice as long as `dup2` stays away from the next index,
and the first `dup2` onto it makes the next allocation an alias. -/
theorem fresh_iff_careful_calls (reached : Reached (fun map call => call.Careful map) map) :
    Fresh map ∧ ∀ (call : Call φ) (after : OpenFileMap φ), call.run map = some after → (Fresh after ↔ call.Careful map) := by
  refine ⟨reached.sound.fresh, fun call after returned => ⟨fun fresh => ?_, fun careful => (reached.sound.call careful returned).fresh⟩⟩
  cases call with
  | add | dup | remove => trivial
  | dup2 oldfd newfd =>
    cases returned
    by_contra careless
    obtain ⟨file, bound⟩ : ∃ file, map.get oldfd = some file := by
      by_contra unbound
      exact careless fun held => absurd (Option.ne_none_iff_exists'.mp held) unbound
    obtain ⟨fd, after, added, held⟩ := bound_of_careless careless file
    exact held (fresh.add file fd after added).unbound

/-- A file is opened and duplicated to the next number, and another file is opened. -/
theorem next_index_aliased : ∃ map after : OpenFileMap Char, Reached (fun _ _ => True) map ∧
    map.get 10001 = some 'a' ∧ map.add 'b' = some (10001, after) ∧ after.get 10001 = some 'a' := by
  have opened : Reached (fun _ _ => True) _ := @Reached.call Char _ _ _ (.add 'a') .empty trivial rfl
  have duplicated : Reached (fun _ _ => True) _ := @Reached.call Char _ _ _ (.dup2 10000 10001) opened trivial rfl
  exact ⟨_, _, duplicated, rfl, rfl, rfl⟩

theorem fresh_iff_careful_calls_redirect : ∃ map : OpenFileMap Char, map.get 1 = some 'a' ∧ Fresh map := by
  have opened : Reached (fun map call => call.Careful map) _ := @Reached.call Char _ _ _ (.add 'a') .empty trivial rfl
  have redirected : Reached (fun map call => call.Careful map) _ :=
    @Reached.call Char _ _ _ (.dup2 10000 1) opened (fun _ _ _ _ => by decide) rfl
  exact ⟨_, rfl, (fresh_iff_careful_calls redirected).1⟩

end GekkoFwd.Proofs.FdAllocation
