import GekkoFwd.Forwarding

/-! Which forwarder a client uses after any number of loads of its map. The context
follows the map, but the distributor was made from the first one. -/

namespace GekkoFwd.Proofs.Remapping
open ForwardingMap ForwardingContext

variable {hostname : Str} {hosts : Nat} {first latest map : ForwardingMap} {contents : List (Option Str)}
  {context after : ForwardingContext} {mapper : ForwardingMapper} {strHash : Str → Nat}

/-- The maps that were loaded first and last, and what the client has made of them. -/
inductive Loads (hostname : Str) (hosts : Nat) : ForwardingMap → ForwardingMap → ForwardingMapper → Prop
  | start {contents : List (Option Str)} {map : ForwardingMap} {context after : ForwardingContext} (known : context.hosts = hosts)
      (loaded : loadUntilFilled contents = some (.ok map)) (ran : context.initLdEnvironment hostname contents = some (.ok after)) :
      Loads hostname hosts map map ⟨after, -1⟩
  | reload {contents : List (Option Str)} {first latest map : ForwardingMap} {mapper after : ForwardingMapper}
      (before : Loads hostname hosts first latest mapper) (loaded : loadUntilFilled contents = some (.ok map))
      (ran : mapper.round hostname contents = some (.ok after)) : Loads hostname hosts first map after

/-- The client's data goes to the forwarder that a map assigns to its host. -/
def TakesEffect (strHash : Str → Nat) (hostname : Str) (map : ForwardingMap) (context : ForwardingContext) : Prop :=
  ∃ forwarder, map.lookup hostname = some forwarder ∧
    (∀ path chnkId, context.locateData strHash path chnkId = some forwarder.toNat) ∧
    ∀ transfer path requests, context.inputs strHash transfer path = some requests → ∀ request ∈ requests, request.1 = forwarder.toNat

/-- Two maps send a host to the same forwarder; the first number is cut to the 32 bits of a host number. -/
def Keeps (hostname : Str) (first latest : ForwardingMap) : Prop :=
  ∃ before forwarder, first.lookup hostname = some before ∧ latest.lookup hostname = some forwarder ∧
    before.toNat % 2 ^ 32 = forwarder.toNat

/-- A load that succeeds finds the host in the map, and changes the context alone. -/
theorem loadForwardingMap_ok (loaded : loadUntilFilled contents = some (.ok map))
    (ran : context.loadForwardingMap hostname contents = some (.ok after)) :
    ∃ forwarder, map.lookup hostname = some forwarder ∧ after = { context with fwdHostId := forwarder } := by
  rw [loadForwardingMap, loaded] at ran
  cases found : map.lookup hostname with
  | none =>
    simp only [Option.map_some, found, Bind.bind, Except.bind] at ran
    cases ran
  | some forwarder =>
    simp only [Option.map_some, found, Bind.bind, Except.bind] at ran
    cases ran
    exact ⟨forwarder, rfl, rfl⟩

/-- What every load leaves: the distributor of the first map. -/
structure Follows (hostname : Str) (first latest : ForwardingMap) (mapper : ForwardingMapper) : Prop where
  distributor : ∃ before hostsSize, first.lookup hostname = some before ∧
    mapper.context.distributor = some (.forwarder (before.toNat % 2 ^ 32) hostsSize)
  fwdHostId : latest.lookup hostname = some mapper.context.fwdHostId

theorem follows_start (loaded : loadUntilFilled contents = some (.ok map))
    (ran : context.initLdEnvironment hostname contents = some (.ok after)) (previous : BitVec 32) :
    Follows hostname map map ⟨after, previous⟩ := by
  rw [initLdEnvironment] at ran
  obtain ⟨result, load, made⟩ := Option.map_eq_some_iff.mp ran
  cases result with
  | error exn => cases made
  | ok between =>
    obtain ⟨forwarder, found, rfl⟩ := loadForwardingMap_ok loaded load
    cases made
    exact ⟨⟨forwarder, _, found, rfl⟩, found⟩

theorem Follows.round {next : ForwardingMapper} (follows : Follows hostname first latest mapper)
    (loaded : loadUntilFilled contents = some (.ok map)) (ran : mapper.round hostname contents = some (.ok next)) :
    Follows hostname first map next := by
  rw [ForwardingMapper.round] at ran
  obtain ⟨result, load, made⟩ := Option.map_eq_some_iff.mp ran
  cases result with
  | error exn => cases made
  | ok between =>
    obtain ⟨forwarder, found, rfl⟩ := loadForwardingMap_ok loaded load
    simp only [Bind.bind, Except.bind] at made
    split at made
    next =>
      cases made
      exact ⟨follows.distributor, found⟩
    next =>
      cases made
      exact ⟨follows.distributor, found⟩

theorem Loads.follows (loads : Loads hostname hosts first latest mapper) : Follows hostname first latest mapper := by
  induction loads with
  | start known loaded ran => exact follows_start loaded ran (-1)
  | reload before loaded ran follows => exact follows.round loaded ran

/-- Every request goes to the place of some chunk. -/
theorem mem_inputs {locate : Nat → Nat} {path : Str} {offset size : Word} {requests : List (Nat × DataIn)}
    (split : ForwardSplit.inputs locate hosts path offset size = some requests) {request : Nat × DataIn} (member : request ∈ requests) :
    ∃ chnkId, request.1 = locate chnkId := by
  obtain ⟨state, collected, rfl⟩ := Option.map_eq_some_iff.mp split
  obtain ⟨target, listed, rfl⟩ := List.mem_map.mp member
  have located : ∀ target ∈ state.targets, ∃ chnkId, target = locate chnkId := by
    refine (WhileLoop.run_partial (fun state : ForwardSplit.State => ∀ target ∈ state.targets, ∃ chnkId, target = locate chnkId)
      ?_ (fun target none => absurd none List.not_mem_nil) collected).1
    intro current known _ target listed
    rw [ForwardSplit.body] at listed
    dsimp only at listed
    split at listed
    next =>
      rcases List.mem_append.mp listed with before | last
      · exact known target before
      · exact ⟨_, List.mem_singleton.mp last⟩
    next => exact known target listed
  exact located target listed

/-- A new map takes effect exactly when it sends the host where the first one did. -/
theorem remap_takesEffect_iff (loads : Loads hostname hosts first latest mapper) :
    TakesEffect strHash hostname latest mapper.context ↔ Keeps hostname first latest := by
  obtain ⟨⟨before, hostsSize, start, distributor⟩, found⟩ := loads.follows
  constructor
  · rintro ⟨forwarder, assigned, located, _⟩
    have host := located [] 0
    rw [locateData, distributor] at host
    exact ⟨before, forwarder, start, assigned, Option.some.inj host⟩
  · rintro ⟨other, forwarder, again, assigned, same⟩
    cases start.symm.trans again
    refine ⟨forwarder, assigned, fun path chnkId => ?_, fun transfer path requests split request member => ?_⟩
    · rw [locateData, distributor, ← same]
      rfl
    · rw [ForwardingContext.inputs, distributor] at split
      obtain ⟨chnkId, target⟩ := mem_inputs split member
      exact target.trans same

/-- A client of two hosts that has not loaded anything yet. -/
def unloaded : ForwardingContext := ⟨2, 0, none, []⟩

theorem remap_takesEffect_iff_kept : ∃ map mapper,
    Loads "node".toList 2 map map mapper ∧ (TakesEffect List.length "node".toList map mapper.context ↔ Keeps "node".toList map map) := by
  have loads := @Loads.start "node".toList 2 [some "node 1\n".toList] _ unloaded _ rfl rfl rfl
  exact ⟨_, _, loads, remap_takesEffect_iff loads⟩

/-- The map sends the host to forwarder 1, the data still goes to forwarder 0. -/
theorem remap_without_effect : ∃ first latest mapper,
    Loads "node".toList 2 first latest mapper ∧ ¬TakesEffect List.length "node".toList latest mapper.context := by
  have start := @Loads.start "node".toList 2 [some "node 0\n".toList] _ unloaded _ rfl rfl rfl
  have loads := @Loads.reload "node".toList 2 [some "node 1\n".toList] _ _ _ _ _ start rfl rfl
  refine ⟨_, _, _, loads, ?_⟩
  rintro ⟨forwarder, assigned, located, _⟩
  cases assigned
  exact absurd (located [] 0) (by decide)

end GekkoFwd.Proofs.Remapping
