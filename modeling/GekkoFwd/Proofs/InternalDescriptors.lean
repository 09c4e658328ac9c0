import GekkoFwd.InternalCalls

/-! The books about the descriptors of the library: the bitset marks exactly the
numbers that they have in the kernel's table. While a call is being handled, the
descriptors that the kernel has just made are pending. -/

namespace GekkoFwd.Proofs.InternalDescriptors

variable {limits : FdLimits} {ndebug : Bool} {pending rest : List Int} {internal : InternalFds} {kernel : Kernel}
  {table : FdTable Owner} {fd other : Int} {owner : Owner} {φ : Type}

/-- The numbers that the library keeps for itself. -/
def Internal (limits : FdLimits) (fd : Int) : Prop := limits.minInternalFd ≤ fd ∧ fd < limits.maxOpenFds

/-- The place of a number in the bitset. -/
def slot (limits : FdLimits) (fd : Int) : Nat := (fd - limits.minInternalFd).toNat

/-- The kernel gives a new descriptor the number it keeps, or one it is moved away from. -/
def Placed (limits : FdLimits) (internal : InternalFds) (fd : Int) : Prop :=
  Internal limits fd ↔ internal.internalFdsMustRelocate = false

/-- Every descriptor that the library has made and not closed has one number. -/
structure Ledger (kernel : Kernel) : Prop where
  live : ∀ id, (id < kernel.created ∧ id ∉ kernel.closed) ↔ ∃ fd, kernel.table.get fd = some (.library id)
  closed : ∀ id ∈ kernel.closed, id < kernel.created
  unique : ∀ {fd other id}, kernel.table.get fd = some (.library id) → kernel.table.get other = some (.library id) → fd = other

structure Books (limits : FdLimits) (pending : List Int) (internal : InternalFds) (kernel : Kernel) : Prop extends Ledger kernel where
  limit : limits.maxOpenFds ≤ kernel.table.limit
  free : ∀ {fd}, Internal limits fd → internal.internalFds (slot limits fd) = true → kernel.table.get fd = none ∨ fd ∈ pending
  unbound : ∀ {fd}, Internal limits fd → kernel.table.get fd = none → internal.internalFds (slot limits fd) = true
  recorded : ∀ {fd id}, kernel.table.get fd = some (.library id) → Internal limits fd ∨ fd ∈ pending
  foreign : ∀ {fd owner}, limits.minInternalFd ≤ fd → kernel.table.get fd = some owner → ∃ id, owner = .library id
  made : ∀ fd ∈ pending, ∃ id, kernel.table.get fd = some (.library id)
  placed : ∀ fd ∈ pending, Placed limits internal fd
  nodup : pending.Nodup

theorem position_internal (inside : Internal limits fd) : InternalFds.position limits fd = .ok (slot limits fd) := by
  obtain ⟨least, most⟩ := inside
  rw [InternalFds.position]
  refine if_pos ⟨by omega, ?_⟩
  rw [FdLimits.minInternalFd] at least ⊢
  omega

theorem position_below (below : fd < limits.minInternalFd) : InternalFds.position limits fd = .error .outOfRange :=
  if_neg fun range => absurd range.1 (by omega)

theorem isInternalFd_below (below : fd < limits.minInternalFd) : internal.isInternalFd limits fd = .ok false := if_pos below

theorem isInternalFd_internal (inside : Internal limits fd) :
    internal.isInternalFd limits fd = .ok (!internal.internalFds (slot limits fd)) := by
  rw [InternalFds.isInternalFd, if_neg (Int.not_lt.mpr inside.1), position_internal inside]
  rfl

/-- The bitset has no place for a number above the range. -/
theorem isInternalFd_above (above : limits.maxOpenFds ≤ fd) : internal.isInternalFd limits fd = .error .outOfRange := by
  have low : ¬fd < limits.minInternalFd := by
    rw [FdLimits.minInternalFd]
    omega
  have outside : InternalFds.position limits fd = .error .outOfRange := by
    refine if_neg fun range => absurd range.2 ?_
    rw [FdLimits.minInternalFd]
    omega
  rw [InternalFds.isInternalFd, if_neg low, outside]
  rfl

theorem slot_add (pos : Nat) : slot limits (pos + limits.minInternalFd) = pos := by
  rw [slot, Int.add_sub_cancel, Int.toNat_natCast]

theorem internal_add {pos : Nat} (inside : pos < limits.maxInternalFds) : Internal limits (pos + limits.minInternalFd) := by
  rw [Internal, FdLimits.minInternalFd]
  omega

theorem slot_inj (inside : Internal limits fd) (within : Internal limits other) (same : slot limits fd = slot limits other) :
    fd = other := by
  obtain ⟨least, _⟩ := inside
  obtain ⟨lower, _⟩ := within
  rw [slot, slot] at same
  omega

theorem assign_slot {free : Bool} (inside : Internal limits fd) (within : Internal limits other) :
    (internal.assign (slot limits fd) free).internalFds (slot limits other) =
      if other = fd then free else internal.internalFds (slot limits other) := by
  simp only [InternalFds.assign, Function.update_apply]
  by_cases same : other = fd
  · rw [if_pos same, if_pos (congrArg _ same)]
  · rw [if_neg same, if_neg fun slots => same (slot_inj within inside slots)]

/-- A descriptor that the kernel has put into the internal range stays where it is. -/
theorem registerInternalFd_keeps (kept : internal.internalFdsMustRelocate = false) (inside : Internal limits fd) (natural : 0 ≤ fd) :
    internal.registerInternalFd limits ndebug table fd = .ok (fd, internal.assign (slot limits fd) false, table) := by
  rw [InternalFds.registerInternalFd, kept, position_internal inside, decide_eq_true natural, decide_eq_true inside.1]
  simp only [assertThat_true]
  rfl

/-- Any other one moves to the first free place. -/
theorem registerInternalFd_moves (ndebug : Bool) (moves : internal.internalFdsMustRelocate = true) (limit : limits.maxOpenFds ≤ table.limit)
    {pos : Nat} (first : internal.findFirst limits = some pos) (bound : table.get fd = some owner) (outside : ¬Internal limits fd) :
    ∃ after : FdTable Owner, internal.registerInternalFd limits ndebug table fd =
        .ok (pos + limits.minInternalFd, internal.assign pos false, after) ∧ after.limit = table.limit ∧
      ∀ other, after.get other =
        if other = fd then none else if other = pos + limits.minInternalFd then some owner else table.get other := by
  have inside : pos < limits.maxInternalFds := List.mem_range.mp (List.mem_of_find?_eq_some first)
  have different : fd ≠ pos + limits.minInternalFd := fun same => outside (same ▸ internal_add inside)
  have valid : 0 ≤ pos + limits.minInternalFd ∧ pos + limits.minInternalFd < table.limit := by
    have range := internal_add inside
    have fits := limits.fits
    rw [Internal, FdLimits.minInternalFd] at range
    rw [FdLimits.minInternalFd]
    omega
  have still : (table.bind _ owner valid).get fd = some owner := by
    rw [FdTable.get_bind, if_neg different, bound]
  refine ⟨(table.bind _ owner valid).unbind fd, ?_, rfl, fun other => ?_⟩
  · simp only [InternalFds.registerInternalFd, moves, decide_eq_true (FdTable.range_of_get bound).1, assertThat_true, first,
      if_neg different, FdTable.dup2, bound, dif_pos valid, FdTable.close, still]
    rfl
  · rw [FdTable.get_unbind, FdTable.get_bind]

/-- Of what the library has at a number, a release is a closing. -/
theorem mem_release {id : Nat} : id ∈ kernel.release fd ↔ kernel.table.get fd = some (.library id) ∨ id ∈ kernel.closed := by
  rw [Kernel.release]
  split
  next held bound => rw [bound, List.mem_cons, Option.some_inj, Owner.library.injEq, eq_comm]
  next none => exact ⟨.inr, fun either => either.resolve_left (none id)⟩

/-- The kernel's table once a number is bound to a new descriptor of the library. -/
theorem get_bind_library (valid : 0 ≤ fd ∧ fd < table.limit) {made id : Nat} :
    (table.bind fd (.library made) valid).get other = some (.library id) ↔
      (other = fd ∧ id = made) ∨ (other ≠ fd ∧ table.get other = some (.library id)) := by
  rw [FdTable.get_bind]
  split
  next same => simp [same, eq_comm]
  next different => simp [different]

theorem Ledger.bind (ledger : Ledger kernel) (valid : 0 ≤ fd ∧ fd < kernel.table.limit) :
    Ledger ⟨kernel.table.bind fd (.library kernel.created) valid, kernel.created + 1, kernel.release fd⟩ := by
  have old : ∀ {number id}, kernel.table.get number = some (.library id) → id < kernel.created := fun bound =>
    ((ledger.live _).mpr ⟨_, bound⟩).1
  refine ⟨fun id => ?_, fun id member => ?_, fun bound again => ?_⟩
  · simp only [get_bind_library, mem_release, not_or]
    constructor
    · rintro ⟨bounded, released, unclosed⟩
      rcases Nat.lt_succ_iff_lt_or_eq.mp bounded with before | rfl
      · obtain ⟨number, bound⟩ := (ledger.live id).mp ⟨before, unclosed⟩
        exact ⟨number, .inr ⟨fun same => released (same ▸ bound), bound⟩⟩
      · exact ⟨fd, .inl ⟨rfl, rfl⟩⟩
    · rintro ⟨number, ⟨_, rfl⟩ | ⟨different, bound⟩⟩
      · exact ⟨Nat.lt_succ_self _, fun bound => Nat.lt_irrefl _ (old bound), fun member => Nat.lt_irrefl _ (ledger.closed _ member)⟩
      · have alive := (ledger.live id).mpr ⟨number, bound⟩
        exact ⟨Nat.lt_succ_of_lt alive.1, fun other => different (ledger.unique bound other), alive.2⟩
  · rcases mem_release.mp member with bound | before
    · exact Nat.lt_succ_of_lt (old bound)
    · exact Nat.lt_succ_of_lt (ledger.closed id before)
  · rcases (get_bind_library valid).mp bound with ⟨rfl, rfl⟩ | ⟨_, before⟩
    · rcases (get_bind_library valid).mp again with ⟨rfl, _⟩ | ⟨_, before⟩
      · rfl
      · exact absurd (old before) (Nat.lt_irrefl _)
    · rcases (get_bind_library valid).mp again with ⟨rfl, rfl⟩ | ⟨_, other⟩
      · exact absurd (old before) (Nat.lt_irrefl _)
      · exact ledger.unique before other

/-- A descriptor that moves to another number stays the same. -/
theorem Ledger.move (ledger : Ledger kernel) {number : Int} {id : Nat} (bound : kernel.table.get fd = some (.library id))
    (moved : ∀ {other held}, table.get other = some (.library held) ↔
      (other = number ∧ held = id) ∨ (other ≠ fd ∧ kernel.table.get other = some (.library held))) :
    Ledger { kernel with table } := by
  refine ⟨fun held => (ledger.live held).trans ⟨?_, ?_⟩, ledger.closed, fun {first second held} found again => ?_⟩
  · rintro ⟨other, before⟩
    by_cases same : other = fd
    · subst same
      rw [bound, Option.some_inj, Owner.library.injEq] at before
      exact ⟨number, moved.mpr (.inl ⟨rfl, before.symm⟩)⟩
    · exact ⟨other, moved.mpr (.inr ⟨same, before⟩)⟩
  · rintro ⟨other, after⟩
    rcases moved.mp after with ⟨_, rfl⟩ | ⟨_, before⟩
    · exact ⟨fd, bound⟩
    · exact ⟨other, before⟩
  · rcases moved.mp found with ⟨rfl, rfl⟩ | ⟨elsewhere, before⟩
    · rcases moved.mp again with ⟨rfl, _⟩ | ⟨elsewhere, before⟩
      · rfl
      · exact absurd (ledger.unique before bound) elsewhere
    · rcases moved.mp again with ⟨rfl, rfl⟩ | ⟨_, other⟩
      · exact absurd (ledger.unique before bound) elsewhere
      · exact ledger.unique before other

/-- The kernel binds a number to a new descriptor of the library. -/
theorem Books.bind (books : Books limits pending internal kernel) (valid : 0 ≤ fd ∧ fd < kernel.table.limit)
    (fresh : fd ∉ pending) (placed : Placed limits internal fd) :
    Books limits (pending ++ [fd]) internal
      ⟨kernel.table.bind fd (.library kernel.created) valid, kernel.created + 1, kernel.release fd⟩ := by
  refine ⟨books.toLedger.bind valid, books.limit, fun inside marked => ?_, fun {number} inside unbound => ?_, fun bound => ?_,
    fun above bound => ?_, fun number member => ?_, fun number member => ?_, ?_⟩
  · rw [FdTable.get_bind, List.mem_append, List.mem_singleton]
    split
    next same => exact .inr (.inr same)
    next => exact (books.free inside marked).imp_right .inl
  · rw [FdTable.get_bind] at unbound
    split at unbound
    next => cases unbound
    next => exact books.unbound inside unbound
  · rw [List.mem_append, List.mem_singleton]
    rcases (get_bind_library valid).mp bound with ⟨same, _⟩ | ⟨_, before⟩
    · exact .inr (.inr same)
    · exact (books.recorded before).imp_right .inl
  · rw [FdTable.get_bind] at bound
    split at bound
    next => exact ⟨_, (Option.some.inj bound).symm⟩
    next => exact books.foreign above bound
  · rcases List.mem_append.mp member with before | last
    · obtain ⟨id, bound⟩ := books.made number before
      exact ⟨id, (get_bind_library valid).mpr (.inr ⟨fun same => fresh (same ▸ before), bound⟩)⟩
    · exact ⟨_, (get_bind_library valid).mpr (.inl ⟨List.mem_singleton.mp last, rfl⟩)⟩
  · rcases List.mem_append.mp member with before | last
    · exact books.placed number before
    · exact List.mem_singleton.mp last ▸ placed
  · refine List.nodup_append.mpr ⟨books.nodup, List.nodup_singleton fd, fun number before last member same => fresh ?_⟩
    rwa [← List.mem_singleton.mp member, ← same]

theorem exists_findFirst {pos : Nat} (inside : pos < limits.maxInternalFds) (free : internal.internalFds pos = true) :
    ∃ first, internal.findFirst limits = some first ∧ first < limits.maxInternalFds ∧ internal.internalFds first = true := by
  obtain ⟨first, found⟩ := Option.isSome_iff_exists.mp (List.find?_isSome.mpr ⟨pos, List.mem_range.mpr inside, free⟩)
  exact ⟨first, found, List.mem_range.mp (List.mem_of_find?_eq_some found), List.find?_some found⟩

/-- What the registration of the first pending descriptor comes to. -/
structure Registered (limits : FdLimits) (rest : List Int) (internal : InternalFds) (kernel : Kernel) (number : Int)
    (after : InternalFds) (table : FdTable Owner) : Prop where
  books : Books limits rest after { kernel with table }
  inside : Internal limits number
  bound : ∃ id, table.get number = some (.library id)
  phase : after.internalFdsMustRelocate = internal.internalFdsMustRelocate
  kept : ∀ {other owner}, Internal limits other → kernel.table.get other = some owner → table.get other = some owner
  unbound : (kernel.table.unbound limits.minInternalFd limits.maxOpenFds).erase number ⊆
    table.unbound limits.minInternalFd limits.maxOpenFds
  user : internal.internalFdsMustRelocate = false → table = kernel.table

theorem Books.register_kept (books : Books limits (fd :: rest) internal kernel) (kept : internal.internalFdsMustRelocate = false) :
    internal.registerInternalFd limits ndebug kernel.table fd =
        .ok (fd, internal.assign (slot limits fd) false, kernel.table) ∧
      Registered limits rest internal kernel fd (internal.assign (slot limits fd) false) kernel.table := by
  have inside : Internal limits fd := (books.placed fd List.mem_cons_self).mpr kept
  obtain ⟨id, bound⟩ := books.made fd List.mem_cons_self
  obtain ⟨fresh, nodup⟩ := List.nodup_cons.mp books.nodup
  refine ⟨registerInternalFd_keeps kept inside (FdTable.range_of_get bound).1, ?_, inside, ⟨id, bound⟩, rfl, fun _ held => held,
    Finset.erase_subset _ _, fun _ => rfl⟩
  refine ⟨books.toLedger, books.limit, fun {other} within marked => ?_, fun {other} within unbound => ?_, fun {other id} held => ?_,
    books.foreign, fun other member => books.made other (List.mem_cons_of_mem _ member),
    fun other member => books.placed other (List.mem_cons_of_mem _ member), nodup⟩
  · rw [assign_slot inside within] at marked
    split at marked
    next => cases marked
    next different => exact (books.free within marked).imp_right fun member => (List.mem_cons.mp member).resolve_left different
  · rw [assign_slot inside within, if_neg]
    · exact books.unbound within unbound
    · rintro rfl
      rw [bound] at unbound
      cases unbound
  · rcases books.recorded held with within | member
    · exact .inl within
    · rcases List.mem_cons.mp member with rfl | later
      · exact .inl inside
      · exact .inr later

theorem Books.register_moved (books : Books limits (fd :: rest) internal kernel) (moves : internal.internalFdsMustRelocate = true)
    (room : (kernel.table.unbound limits.minInternalFd limits.maxOpenFds).Nonempty) :
    ∃ number after table, internal.registerInternalFd limits ndebug kernel.table fd = .ok (number, after, table) ∧
      Registered limits rest internal kernel number after table := by
  have outside : ∀ other ∈ fd :: rest, ¬Internal limits other := fun other member within =>
    absurd ((books.placed other member).mp within) (by simp [moves])
  obtain ⟨id, bound⟩ := books.made fd List.mem_cons_self
  obtain ⟨fresh, nodup⟩ := List.nodup_cons.mp books.nodup
  obtain ⟨place, unbound⟩ := room
  obtain ⟨range, unbound⟩ := FdTable.mem_unbound.mp unbound
  have small : slot limits place < limits.maxInternalFds := by
    rw [FdLimits.minInternalFd] at range
    rw [slot, FdLimits.minInternalFd]
    omega
  obtain ⟨pos, first, within, free⟩ := exists_findFirst small (books.unbound range unbound)
  have inside := internal_add within
  obtain ⟨table, registered, limit, get⟩ := registerInternalFd_moves ndebug moves books.limit first bound
    (outside fd List.mem_cons_self)
  generalize target : (pos : Int) + limits.minInternalFd = number at *
  have place : slot limits number = pos := target ▸ slot_add pos
  have vacant : kernel.table.get number = none := by
    rw [← place] at free
    exact (books.free inside free).resolve_right fun member => outside number member inside
  have different : number ≠ fd := fun same => outside fd List.mem_cons_self (same ▸ inside)
  have moved : ∀ {other held}, table.get other = some (.library held) ↔
      (other = number ∧ held = id) ∨ (other ≠ fd ∧ kernel.table.get other = some (.library held)) := by
    intro other held
    rw [get]
    by_cases here : other = fd
    · simp [here, different.symm]
    · by_cases there : other = number
      · simp [there, vacant, different, eq_comm]
      · simp [here, there]
  have others : ∀ {other}, Internal limits other → other ≠ number → table.get other = kernel.table.get other := by
    intro other within elsewhere
    rw [get, if_neg fun same : other = fd => outside fd List.mem_cons_self (same ▸ within), if_neg elsewhere]
  refine ⟨number, internal.assign pos false, table, registered, ?_, inside, ⟨id, moved.mpr (.inl ⟨rfl, rfl⟩)⟩, rfl,
    fun {other owner} within held => ?_, fun other member => ?_, fun kept => absurd moves (by simp [kept])⟩
  · subst place
    refine ⟨books.toLedger.move bound moved, limit.symm ▸ books.limit, fun {other} within marked => ?_,
      fun {other} within unbound => ?_, fun {other held} bound => ?_, fun {other owner} above bound => ?_, fun other member => ?_,
      fun other member => books.placed other (List.mem_cons_of_mem _ member), nodup⟩
    · rw [assign_slot inside within] at marked
      split at marked
      next => cases marked
      next elsewhere =>
        refine .inl ((others within elsewhere).trans ?_)
        exact (books.free within marked).resolve_right fun member => outside other member within
    · by_cases same : other = number
      · exact absurd ((moved.mpr (.inl ⟨same, rfl⟩)).symm.trans unbound) nofun
      · rw [assign_slot inside within, if_neg same]
        exact books.unbound within ((others within same).symm.trans unbound)
    · rcases moved.mp bound with ⟨same, _⟩ | ⟨elsewhere, before⟩
      · exact .inl (same ▸ inside)
      · exact (books.recorded before).imp_right fun member => (List.mem_cons.mp member).resolve_left elsewhere
    · rw [get] at bound
      split at bound
      next => cases bound
      next =>
        split at bound
        next => exact ⟨_, (Option.some.inj bound).symm⟩
        next => exact books.foreign above bound
    · obtain ⟨held, bound⟩ := books.made other (List.mem_cons_of_mem _ member)
      exact ⟨held, moved.mpr (.inr ⟨fun same => fresh (same ▸ member), bound⟩)⟩
  · by_cases same : other = number
    · rw [same, vacant] at held
      cases held
    · exact (others within same).trans held
  · obtain ⟨elsewhere, member⟩ := Finset.mem_erase.mp member
    obtain ⟨within, unbound⟩ := FdTable.mem_unbound.mp member
    exact FdTable.mem_unbound.mpr ⟨within, (others within elsewhere).trans unbound⟩

/-- What the registration of all pending descriptors comes to. -/
structure Filed (limits : FdLimits) (internal : InternalFds) (kernel : Kernel) (fds : List Int) (after : InternalFds)
    (table : FdTable Owner) : Prop where
  books : Books limits [] after { kernel with table }
  phase : after.internalFdsMustRelocate = internal.internalFdsMustRelocate
  bound : ∀ fd ∈ fds, Internal limits fd ∧ ∃ id, table.get fd = some (.library id)
  kept : ∀ {other owner}, Internal limits other → kernel.table.get other = some owner → table.get other = some owner
  user : internal.internalFdsMustRelocate = false → table = kernel.table

theorem Registered.cons {number : Int} {fds : List Int} {between after : InternalFds} {middle : FdTable Owner}
    (registered : Registered limits rest internal kernel number between middle)
    (filed : Filed limits between { kernel with table := middle } fds after table) :
    Filed limits internal kernel (number :: fds) after table := by
  refine ⟨filed.books, filed.phase.trans registered.phase, fun fd member => ?_, fun within held => ?_, fun kept => ?_⟩
  · rcases List.mem_cons.mp member with rfl | later
    · obtain ⟨id, bound⟩ := registered.bound
      exact ⟨registered.inside, id, filed.kept registered.inside bound⟩
    · exact filed.bound fd later
  · exact filed.kept within (registered.kept within held)
  · exact (filed.user (registered.phase.trans kept)).trans (registered.user kept)

theorem Books.registerAll (ndebug : Bool) (books : Books limits pending internal kernel)
    (room : internal.internalFdsMustRelocate = true →
      pending.length ≤ (kernel.table.unbound limits.minInternalFd limits.maxOpenFds).card) :
    ∃ fds after table, Session.registerAll limits ndebug pending internal kernel.table = .ok (fds, after, table) ∧
      Filed limits internal kernel fds after table := by
  induction pending generalizing internal kernel with
  | nil => exact ⟨[], internal, kernel.table, rfl, books, rfl, nofun, fun _ held => held, fun _ => rfl⟩
  | cons fd rest ih =>
    obtain ⟨number, between, middle, ran, registered⟩ : ∃ number after table,
        internal.registerInternalFd limits ndebug kernel.table fd = .ok (number, after, table) ∧
          Registered limits rest internal kernel number after table := by
      cases phase : internal.internalFdsMustRelocate with
      | false => exact ⟨_, _, _, books.register_kept phase⟩
      | true => exact books.register_moved phase (Finset.card_pos.mp (Nat.lt_of_lt_of_le (Nat.succ_pos _) (room phase)))
    have less : between.internalFdsMustRelocate = true →
        rest.length ≤ (middle.unbound limits.minInternalFd limits.maxOpenFds).card := by
      intro moves
      have before := room (registered.phase.symm.trans moves)
      calc rest.length ≤ (kernel.table.unbound limits.minInternalFd limits.maxOpenFds).card - 1 := Nat.le_sub_one_of_lt before
        _ ≤ ((kernel.table.unbound limits.minInternalFd limits.maxOpenFds).erase number).card := Finset.pred_card_le_card_erase
        _ ≤ _ := Finset.card_le_card registered.unbound
    obtain ⟨fds, after, table, all, filed⟩ := ih registered.books less
    refine ⟨number :: fds, after, table, ?_, registered.cons filed⟩
    simp only [Session.registerAll, ran, Bind.bind, Except.bind] at all ⊢
    rw [all]
    rfl

theorem get_unbind_library {id : Nat} : (table.unbind fd).get other = some (.library id) ↔
    other ≠ fd ∧ table.get other = some (.library id) := by
  rw [FdTable.get_unbind]
  split
  next same => simp [same]
  next different => simp [different]

theorem Ledger.release (ledger : Ledger kernel) (fd : Int) :
    Ledger { kernel with table := kernel.table.unbind fd, closed := kernel.release fd } := by
  refine ⟨fun id => ?_, fun id member => ?_, fun bound again => ?_⟩
  · simp only [get_unbind_library, mem_release, not_or]
    constructor
    · rintro ⟨bounded, released, unclosed⟩
      obtain ⟨number, bound⟩ := (ledger.live id).mp ⟨bounded, unclosed⟩
      exact ⟨number, fun same => released (same ▸ bound), bound⟩
    · rintro ⟨number, different, bound⟩
      have alive := (ledger.live id).mpr ⟨number, bound⟩
      exact ⟨alive.1, fun other => different (ledger.unique bound other), alive.2⟩
  · rcases mem_release.mp member with bound | before
    · exact ((ledger.live id).mpr ⟨fd, bound⟩).1
    · exact ledger.closed id before
  · exact ledger.unique (get_unbind_library.mp bound).2 (get_unbind_library.mp again).2

/-- The library closes a descriptor of its own. -/
theorem Books.unregister (ndebug : Bool) (books : Books limits [] internal kernel) {id : Nat}
    (bound : kernel.table.get fd = some (.library id)) :
    internal.unregisterInternalFd limits ndebug fd = .ok (internal.assign (slot limits fd) true) ∧
      kernel.close fd = (.ok .value, { kernel with table := kernel.table.unbind fd, closed := kernel.release fd }) ∧
      Books limits [] (internal.assign (slot limits fd) true)
        { kernel with table := kernel.table.unbind fd, closed := kernel.release fd } := by
  have inside : Internal limits fd := (books.recorded bound).resolve_right (List.not_mem_nil)
  refine ⟨?_, ?_, books.toLedger.release fd, books.limit, fun {other} within marked => .inl ?_, fun {other} within unbound => ?_,
    fun held => books.recorded (get_unbind_library.mp held).2, fun {other owner} above held => ?_, nofun, nofun, List.nodup_nil⟩
  · rw [InternalFds.unregisterInternalFd, decide_eq_true inside.1, assertThat_true, position_internal inside]
    rfl
  · rw [Kernel.close, FdTable.close, bound]
  · rw [assign_slot inside within] at marked
    rw [FdTable.get_unbind]
    split
    next => rfl
    next different =>
      rw [if_neg different] at marked
      exact (books.free within marked).resolve_right List.not_mem_nil
  · rw [assign_slot inside within]
    split
    next => rfl
    next different =>
      rw [FdTable.get_unbind, if_neg different] at unbound
      exact books.unbound within unbound
  · rw [FdTable.get_unbind] at held
    split at held
    next => cases held
    next => exact books.foreign above held

/-- The numbers below the internal range do not matter, as long as the library has none of them. -/
theorem Books.agree (books : Books limits [] internal kernel) (limit : table.limit = kernel.table.limit)
    (same : ∀ fd, limits.minInternalFd ≤ fd → table.get fd = kernel.table.get fd)
    (user : ∀ fd id, fd < limits.minInternalFd → table.get fd ≠ some (.library id)) : Books limits [] internal { kernel with table } := by
  have above : ∀ {fd id}, table.get fd = some (.library id) → limits.minInternalFd ≤ fd := fun bound =>
    Int.not_lt.mp fun below => user _ _ below bound
  have still : ∀ {fd id}, kernel.table.get fd = some (.library id) ↔ table.get fd = some (.library id) := by
    intro fd id
    constructor
    · intro bound
      rw [same fd ((books.recorded bound).resolve_right List.not_mem_nil).1, bound]
    · intro bound
      rw [← same fd (above bound), bound]
  refine ⟨⟨fun id => ?_, books.closed, fun bound again => books.unique (still.mpr bound) (still.mpr again)⟩, limit.symm ▸ books.limit,
    fun within marked => ?_, fun within unbound => books.unbound within ((same _ within.1).symm.trans unbound),
    fun bound => books.recorded (still.mpr bound), fun above bound => books.foreign above ((same _ above).symm.trans bound),
    nofun, nofun, List.nodup_nil⟩
  · simp only [← still]
    exact books.live id
  · exact (books.free within marked).imp_left (same _ within.1).trans

end GekkoFwd.Proofs.InternalDescriptors
