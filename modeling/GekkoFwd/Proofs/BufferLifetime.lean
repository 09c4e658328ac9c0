import Mathlib.Data.Set.Basic
import GekkoFwd.DataHandler

/-! When the bulk buffer and the eventuals of a data handler outlive the tasks that use
them. The handler's own steps are a script; the pool may run its tasks in any order. -/

namespace GekkoFwd.Proofs.BufferLifetime
open TaskScript DataHandler

variable {outcomes : DataOutcomes} {open_ spawned : Set Nat} {tasks : List Nat} {created maxIdx chunkN left curr : Nat}

/-- The tasks from one number up to another. -/
def between (low high : Nat) : Set Nat := { task | low ≤ task ∧ task < high }

theorem between_empty {low high : Nat} : between low high = ∅ ↔ high ≤ low := by
  rw [Set.eq_empty_iff_forall_notMem]
  refine ⟨fun none => Nat.not_lt.mp fun inside => none low ⟨Nat.le_refl low, inside⟩, fun le task member => ?_⟩
  exact absurd (Nat.lt_of_le_of_lt member.1 member.2) (Nat.not_lt.mpr le)

theorem between_diff {low high : Nat} : between low high \ {low} = between (low + 1) high := by
  ext task
  simp only [between, Set.mem_sdiff, Set.mem_ofPred_eq, Set.mem_singleton_iff]
  omega

theorem between_insert {high : Nat} : insert high (between 0 high) = between 0 (high + 1) := by
  ext task
  simp only [between, Set.mem_insert_iff, Set.mem_ofPred_eq]
  omega

theorem ordered_taskFree {task : Nat} : Ordered uses open_ (taskFree outcomes task) := by
  rw [taskFree]
  split <;> trivial

theorem after_taskFree {task : Nat} :
    after open_ (taskFree outcomes task) = if outcomes.taskFreeJoins then open_ \ {task} else open_ := by
  rw [taskFree]
  split <;> rfl

/-- The buffer is given back only to a response. -/
theorem ordered_cleanupRespond : Ordered uses open_ (cleanupRespond outcomes) ↔ outcomes.respond = false ∨ open_ = ∅ := by
  rw [cleanupRespond, Set.eq_empty_iff_forall_notMem]
  cases outcomes.respond with
  | true => simp [Ordered, uses]
  | false => simp [Ordered]

theorem after_cleanupRespond : after open_ (cleanupRespond outcomes) = open_ := by
  rw [cleanupRespond]
  split <;> rfl

theorem ordered_joins : Ordered uses open_ (tasks.flatMap fun task => .await task :: taskFree outcomes task) := by
  induction tasks generalizing open_ with
  | nil => trivial
  | cons task tasks ih => exact ordered_append.mpr ⟨ordered_taskFree, ih⟩

theorem ordered_cancels :
    Ordered uses open_ (tasks.flatMap fun task => if task < created then .cancel task :: taskFree outcomes task else []) := by
  induction tasks generalizing open_ with
  | nil => trivial
  | cons task tasks ih =>
    rw [List.flatMap_cons, ordered_append]
    refine ⟨?_, ih⟩
    split
    next => exact ordered_taskFree
    next => trivial

theorem after_cancels :
    after open_ (tasks.flatMap fun task => if task < created then .cancel task :: taskFree outcomes task else []) =
      if outcomes.taskFreeJoins then { task ∈ open_ | ¬(task ∈ tasks ∧ task < created) } else open_ := by
  induction tasks generalizing open_ with
  | nil => simp [after]
  | cons task tasks ih =>
    rw [List.flatMap_cons, after_append, ih]
    by_cases exists_ : task < created
    · rw [if_pos exists_]
      simp only [after, after_taskFree]
      split
      next =>
        ext other
        simp only [Set.mem_ofPred_eq, Set.mem_sdiff, Set.mem_singleton_iff, List.mem_cons]
        grind
      next => rfl
    · rw [if_neg exists_]
      simp only [after]
      split
      next =>
        ext other
        simp only [Set.mem_ofPred_eq, List.mem_cons]
        grind
      next => rfl

theorem ordered_releases : Ordered uses open_ (tasks.map fun task => .release (.eventual task)) ↔ ∀ task ∈ tasks, task ∉ open_ := by
  induction tasks with
  | nil => simp [Ordered]
  | cons task tasks ih =>
    simp only [List.map_cons, Ordered, ih, uses, List.forall_mem_cons]
    refine and_congr_left fun _ => ⟨fun free member => free task member rfl, fun absent other member same => absent (same ▸ member)⟩

theorem after_releases : after open_ (tasks.map fun task => Op.release (DataResource.eventual task)) = open_ := by
  induction tasks with
  | nil => rfl
  | cons task tasks ih => exact ih

/-- `cancel_abt_io` is safe when it waits for the tasks, or when there are none. -/
theorem ordered_cancelAbtIo (known : ∀ task ∈ open_, task < created) (covers : created ≤ maxIdx) :
    Ordered uses open_ (cancelAbtIo outcomes created maxIdx) ↔ outcomes.taskFreeJoins = true ∨ open_ = ∅ := by
  rw [cancelAbtIo, ordered_append, and_iff_right ordered_cancels, after_cancels, ordered_releases, Set.eq_empty_iff_forall_notMem]
  split
  next joins =>
    refine iff_of_true (fun task member active => active.2 ⟨member, known task active.1⟩) (.inl joins)
  next leaves =>
    rw [or_iff_right leaves]
    refine ⟨fun absent task active => absent task ?_ active, fun absent task _ => absent task⟩
    exact List.mem_range.mpr (Nat.lt_of_lt_of_le (known task active) covers)

theorem after_cancelAbtIo (known : ∀ task ∈ open_, task < created) (covers : created ≤ maxIdx) :
    after open_ (cancelAbtIo outcomes created maxIdx) = if outcomes.taskFreeJoins then ∅ else open_ := by
  rw [cancelAbtIo, after_append, after_cancels, after_releases]
  split
  next =>
    refine Set.eq_empty_iff_forall_notMem.mpr fun task member => member.2 ⟨?_, known task member.1⟩
    exact List.mem_range.mpr (Nat.lt_of_lt_of_le (known task member.1) covers)
  next => rfl

/-- The way out of the chunk loop after a failed call. -/
theorem ordered_giveUp (known : ∀ task ∈ open_, task < created) (covers : created ≤ maxIdx) :
    Ordered uses open_ (cancelAbtIo outcomes created maxIdx ++ cleanupRespond outcomes) ↔
      outcomes.taskFreeJoins = true ∨ open_ = ∅ := by
  rw [ordered_append, ordered_cancelAbtIo known covers, ordered_cleanupRespond, after_cancelAbtIo known covers]
  refine and_iff_left_of_imp fun either => .inr ?_
  split
  next => rfl
  next leaves => exact either.resolve_left leaves

/-- A chunk whose data cannot be pulled or whose task cannot be created. -/
def Fails (outcomes : DataOutcomes) (pull : Nat → Bool) (task : Nat) : Prop := pull task = false ∨ outcomes.taskCreate task = false

variable {pull good : Nat → Bool} {rest : DataScript}

/-- Without a failed call, all tasks are started and the handler goes on. -/
theorem ordered_chunkLoop (works : ∀ task, curr ≤ task → task < curr + left → ¬Fails outcomes pull task) :
    Ordered uses (between 0 curr) (chunkLoop outcomes pull rest left curr) ↔ Ordered uses (between 0 (curr + left)) rest := by
  induction left generalizing curr with
  | zero => rfl
  | succ left ih =>
    have here : pull curr = true ∧ outcomes.taskCreate curr = true := by
      have works := works curr (Nat.le_refl curr) (by omega)
      rwa [Fails, not_or, Bool.not_eq_false, Bool.not_eq_false] at works
    rw [chunkLoop, here.1, here.2]
    simp only [Bool.not_true, Bool.false_eq_true, if_false, Ordered]
    rw [between_insert, ih fun task later inside => works task (by omega) (by omega), Nat.add_right_comm, Nat.add_assoc]

/-- A failed call is safe when the tasks are waited for, or when none was started. -/
theorem ordered_chunkLoop_fails {task : Nat} (inside : curr ≤ task ∧ task < curr + left) (fails : Fails outcomes pull task)
    (first : ∀ other, curr ≤ other → other < task → ¬Fails outcomes pull other) :
    Ordered uses (between 0 curr) (chunkLoop outcomes pull rest left curr) ↔ outcomes.taskFreeJoins = true ∨ task = 0 := by
  induction left generalizing curr with
  | zero => omega
  | succ left ih =>
    rw [chunkLoop]
    by_cases here : Fails outcomes pull curr
    · have same : task = curr := by
        by_contra different
        exact first curr (Nat.le_refl curr) (by omega) here
      subst same
      have empty : between 0 task = ∅ ↔ task = 0 := between_empty.trans Nat.le_zero
      rw [← empty]
      split
      next => exact ordered_giveUp (fun _ member => member.2) (Nat.le_refl _)
      next pulled =>
        rw [if_pos]
        · exact ordered_giveUp (fun _ member => member.2) (Nat.le_succ _)
        · simpa [pulled] using here.resolve_left (by simpa using pulled)
    · have works : pull curr = true ∧ outcomes.taskCreate curr = true := by
        rwa [Fails, not_or, Bool.not_eq_false, Bool.not_eq_false] at here
      have later : curr ≠ task := fun same => here (same ▸ fails)
      rw [works.1, works.2]
      simp only [Bool.not_true, Bool.false_eq_true, if_false, Ordered]
      rw [between_insert]
      exact ih ⟨by omega, by omega⟩ fun other above => first other (by omega)

/-- The number of eventuals that the handler has waited for. -/
def awaited (outcomes : DataOutcomes) (good : Nat → Bool) : (left curr : Nat) → Nat
  | 0, curr => curr
  | left + 1, curr =>
    if !outcomes.eventualWait curr then curr else if good curr then awaited outcomes good left (curr + 1) else curr + 1

theorem waitLoop_spec {handled : Nat → DataScript}
    (quiet : ∀ task open_, task ∉ open_ → Ordered uses open_ (handled task) ∧ after open_ (handled task) = open_) :
    Ordered uses (between curr chunkN) (waitLoop outcomes good handled left curr) ∧
      after (between curr chunkN) (waitLoop outcomes good handled left curr) = between (awaited outcomes good left curr) chunkN := by
  induction left generalizing curr with
  | zero => exact ⟨trivial, rfl⟩
  | succ left ih =>
    rw [waitLoop, awaited]
    split
    next => exact ⟨trivial, rfl⟩
    next =>
      simp only [Ordered, after, between_diff]
      split
      next =>
        have gone : curr ∉ between (curr + 1) chunkN := fun member => absurd member.1 (by omega)
        obtain ⟨ordered, same⟩ := quiet curr _ gone
        rw [ordered_append, after_append, same]
        exact ⟨⟨ordered, ih.1⟩, ih.2⟩
      next => exact ⟨trivial, rfl⟩

/-- Every eventual can be waited for, and no value but the last one ends the loop. -/
def Collected (outcomes : DataOutcomes) (good : Nat → Bool) (chunkN : Nat) : Prop :=
  ∀ task, task < chunkN → outcomes.eventualWait task = true ∧ (task + 1 < chunkN → good task = true)

theorem le_awaited_iff (total : curr + left = chunkN) : chunkN ≤ awaited outcomes good left curr ↔
    ∀ task, curr ≤ task → task < chunkN → outcomes.eventualWait task = true ∧ (task + 1 < chunkN → good task = true) := by
  induction left generalizing curr with
  | zero => exact iff_of_true (by simp [awaited]; omega) fun task low high => by omega
  | succ left ih =>
    have split_ : (∀ task, curr ≤ task → task < chunkN → outcomes.eventualWait task = true ∧ (task + 1 < chunkN → good task = true)) ↔
        (outcomes.eventualWait curr = true ∧ (curr + 1 < chunkN → good curr = true)) ∧
          ∀ task, curr + 1 ≤ task → task < chunkN → outcomes.eventualWait task = true ∧ (task + 1 < chunkN → good task = true) := by
      refine ⟨fun all => ⟨all curr (Nat.le_refl _) (by omega), fun task later => all task (by omega)⟩, fun both task low high => ?_⟩
      by_cases same : task = curr
      · exact same ▸ both.1
      · exact both.2 task (by omega) high
    rw [split_, ← ih (by omega), awaited]
    cases waits : outcomes.eventualWait curr with
    | false =>
      simp only [Bool.not_false, if_true]
      exact iff_of_false (by omega) (by simp)
    | true =>
      simp only [Bool.not_true, Bool.false_eq_true, if_false, true_and]
      cases fine : good curr with
      | true => simp
      | false =>
        simp only [Bool.false_eq_true, if_false, imp_false, Nat.not_lt]
        refine ⟨fun last => ⟨last, ?_⟩, fun both => both.1⟩
        have none : left = 0 := by omega
        rw [none, awaited]
        exact last

theorem collected_iff : chunkN ≤ awaited outcomes good chunkN 0 ↔ Collected outcomes good chunkN := by
  rw [le_awaited_iff (Nat.zero_add chunkN)]
  simp only [Nat.zero_le, true_imp_iff, Collected]

/-- The end of `rpc_srv_write`. -/
theorem ordered_writeEnd :
    Ordered uses (between 0 chunkN) (waitLoop outcomes (written outcomes) (fun task => [.release (.eventual task)]) chunkN 0 ++
        (cleanupRespond outcomes ++ (List.range chunkN).flatMap fun task => .await task :: taskFree outcomes task)) ↔
      outcomes.respond = false ∨ Collected outcomes (written outcomes) chunkN := by
  have quiet : ∀ (task : Nat) (open_ : Set Nat), task ∉ open_ →
      Ordered uses open_ [.release (.eventual task)] ∧ after open_ [Op.release (DataResource.eventual task)] = open_ := by
    intro task open_ gone
    refine ⟨⟨fun other member same => gone ?_, trivial⟩, rfl⟩
    rwa [show task = other from same]
  obtain ⟨ordered, left⟩ := waitLoop_spec quiet
  rw [ordered_append, and_iff_right ordered, left, ordered_append, and_iff_left ordered_joins, ordered_cleanupRespond, between_empty,
    collected_iff]

/-- The end of `rpc_srv_read`. -/
theorem ordered_readEnd :
    Ordered uses (between 0 chunkN) (waitLoop outcomes (readBack outcomes) (fun _ => []) chunkN 0 ++
        (cleanupRespond outcomes ++ cancelAbtIo outcomes chunkN chunkN)) ↔
      Collected outcomes (readBack outcomes) chunkN ∨ outcomes.respond = false ∧ outcomes.taskFreeJoins = true := by
  have quiet : ∀ (task : Nat) (open_ : Set Nat), task ∉ open_ → Ordered uses open_ [] ∧ after open_ ([] : DataScript) = open_ :=
    fun _ _ _ => ⟨trivial, rfl⟩
  obtain ⟨ordered, left⟩ := waitLoop_spec quiet
  rw [ordered_append, and_iff_right ordered, left, ordered_append, ordered_cleanupRespond, after_cleanupRespond,
    ordered_cancelAbtIo (fun _ member => member.2) (Nat.le_refl _), between_empty, collected_iff, ← and_or_right, or_comm]

/-- The bulk transfer before a task, which only `rpc_srv_write` makes. -/
def pulls (outcomes : DataOutcomes) : Rpc → Nat → Bool
  | .write => outcomes.pull
  | .read => fun _ => true

/-- No task is left behind: the handler ends before its first task, or it waits for all
of them, or what a task still uses is not given back. -/
def Outlives (outcomes : DataOutcomes) (rpc : Rpc) (chunkN : Nat) : Prop :=
  outcomes.getInput = true → outcomes.bulkCreate = true → outcomes.bulkAccess = true →
    ((∃ task < chunkN, Fails outcomes (pulls outcomes rpc) task) → outcomes.taskFreeJoins = true ∨ Fails outcomes (pulls outcomes rpc) 0) ∧
    ((∀ task < chunkN, ¬Fails outcomes (pulls outcomes rpc) task) →
      match rpc with
      | .write => outcomes.respond = false ∨ Collected outcomes (written outcomes) chunkN
      | .read => Collected outcomes (readBack outcomes) chunkN ∨ outcomes.respond = false ∧ outcomes.taskFreeJoins = true)

/-- The chunk loop from the start, whether a call fails or not. -/
theorem ordered_chunks : Ordered uses ∅ (chunkLoop outcomes pull rest chunkN 0) ↔
    ((∃ task < chunkN, Fails outcomes pull task) → outcomes.taskFreeJoins = true ∨ Fails outcomes pull 0) ∧
      ((∀ task < chunkN, ¬Fails outcomes pull task) → Ordered uses (between 0 chunkN) rest) := by
  classical
  have start : (∅ : Set Nat) = between 0 0 := (between_empty.mpr (Nat.le_refl 0)).symm
  rw [start]
  by_cases fails : ∃ task < chunkN, Fails outcomes pull task
  · have first := Nat.find_spec fails
    have earlier : ∀ other, other < Nat.find fails → ¬Fails outcomes pull other := fun other before failed =>
      Nat.find_min fails before ⟨Nat.lt_trans before first.1, failed⟩
    rw [ordered_chunkLoop_fails ⟨Nat.zero_le _, by simpa using first.1⟩ first.2 fun other _ => earlier other]
    have zero : Nat.find fails = 0 ↔ Fails outcomes pull 0 := by
      refine ⟨fun same => same ▸ first.2, fun failed => Nat.eq_zero_of_not_pos fun later => earlier 0 later failed⟩
    rw [zero]
    refine ⟨fun either => ⟨fun _ => either, fun none => absurd fails ?_⟩, fun both => both.1 fails⟩
    rintro ⟨task, inside, failed⟩
    exact none task inside failed
  · have works : ∀ task < chunkN, ¬Fails outcomes pull task := fun task inside failed => fails ⟨task, inside, failed⟩
    rw [ordered_chunkLoop fun task _ inside => works task (by simpa using inside), Nat.zero_add]
    exact ⟨fun ordered => ⟨fun failed => absurd failed fails, fun _ => ordered⟩, fun both => both.2 works⟩

theorem ordered_setup : Ordered uses ∅ (setup outcomes rest) ↔
    (outcomes.getInput = true → outcomes.bulkCreate = true → outcomes.bulkAccess = true → Ordered uses ∅ rest) := by
  rw [setup]
  cases outcomes.getInput with
  | false => simp [Ordered]
  | true =>
    cases outcomes.bulkCreate with
    | false => simp [Ordered]
    | true =>
      cases outcomes.bulkAccess with
      | false => simp [ordered_cleanupRespond]
      | true => simp

theorem ordered_script (rpc : Rpc) : Ordered uses ∅ (script outcomes rpc chunkN) ↔ Outlives outcomes rpc chunkN := by
  cases rpc with
  | write => rw [script, rpcSrvWrite, ordered_setup, ordered_chunks, ordered_writeEnd]; rfl
  | read => rw [script, rpcSrvRead, ordered_setup, ordered_chunks, ordered_readEnd]; rfl

theorem awaits_taskFree {task : Nat} (begun : task ∈ spawned) : Awaits spawned (taskFree outcomes task) := by
  rw [taskFree]
  split
  next => exact ⟨begun, trivial⟩
  next => trivial

theorem awaits_cleanupRespond : Awaits spawned (cleanupRespond outcomes) := by
  rw [cleanupRespond]
  split <;> trivial

theorem awaits_joins (begun : ∀ task ∈ tasks, task ∈ spawned) :
    Awaits spawned (tasks.flatMap fun task => .await task :: taskFree outcomes task) := by
  induction tasks with
  | nil => trivial
  | cons task tasks ih =>
    have here := begun task List.mem_cons_self
    exact ⟨here, (awaits_taskFree here).append (ih fun other member => begun other (List.mem_cons_of_mem _ member))⟩

theorem awaits_cancelAbtIo (begun : ∀ task < created, task ∈ spawned) : Awaits spawned (cancelAbtIo outcomes created maxIdx) := by
  have releases : ∀ tasks : List Nat, Awaits spawned (tasks.map fun task => Op.release (DataResource.eventual task)) := by
    intro tasks
    induction tasks with
    | nil => trivial
    | cons task tasks ih => exact ih
  refine Awaits.append ?_ (releases _)
  induction List.range maxIdx with
  | nil => trivial
  | cons task tasks ih =>
    rw [List.flatMap_cons]
    refine Awaits.append ?_ ih
    split
    next exists_ => exact awaits_taskFree (begun task exists_)
    next => trivial

theorem awaits_waitLoop {handled : Nat → DataScript} (quiet : ∀ task, Awaits spawned (handled task))
    (begun : ∀ task < curr + left, task ∈ spawned) : Awaits spawned (waitLoop outcomes good handled left curr) := by
  induction left generalizing curr with
  | zero => trivial
  | succ left ih =>
    rw [waitLoop]
    split
    next => trivial
    next =>
      refine ⟨begun curr (by omega), ?_⟩
      split
      next => exact (quiet curr).append (ih fun task inside => begun task (by omega))
      next => trivial

theorem awaits_chunkLoop (later : Awaits (between 0 (curr + left)) rest) :
    Awaits (between 0 curr) (chunkLoop outcomes pull rest left curr) := by
  induction left generalizing curr with
  | zero => exact later
  | succ left ih =>
    have begun : ∀ task < curr, task ∈ between 0 curr := fun task inside => ⟨Nat.zero_le _, inside⟩
    have giveUp : ∀ maxIdx, Awaits (between 0 curr) (cancelAbtIo outcomes curr maxIdx ++ cleanupRespond outcomes) := fun maxIdx =>
      (awaits_cancelAbtIo begun).append awaits_cleanupRespond
    rw [chunkLoop]
    split
    next => exact giveUp _
    next =>
      split
      next => exact giveUp _
      next =>
        simp only [Awaits, between_insert]
        refine ih ?_
        rwa [Nat.add_right_comm, Nat.add_assoc]

theorem awaits_setup (later : Awaits ∅ rest) : Awaits ∅ (setup outcomes rest) := by
  rw [setup]
  split
  next => trivial
  next =>
    split
    next => trivial
    next =>
      split
      next => exact awaits_cleanupRespond
      next => exact later

theorem awaits_script (rpc : Rpc) : Awaits ∅ (script outcomes rpc chunkN) := by
  have start : (∅ : Set Nat) = between 0 0 := (between_empty.mpr (Nat.le_refl 0)).symm
  have begun : ∀ task < 0 + chunkN, task ∈ between 0 (0 + chunkN) := fun task inside => ⟨Nat.zero_le _, inside⟩
  cases rpc with
  | write =>
    refine awaits_setup (start ▸ awaits_chunkLoop ?_)
    have quiet : ∀ task, Awaits (between 0 (0 + chunkN)) [Op.release (DataResource.eventual task)] := fun _ => trivial
    refine (awaits_waitLoop quiet begun).append (awaits_cleanupRespond.append (awaits_joins fun task member => ?_))
    exact begun task (by simpa using member)
  | read =>
    refine awaits_setup (start ▸ awaits_chunkLoop ?_)
    have quiet : ∀ _ : Nat, Awaits (between 0 (0 + chunkN)) ([] : DataScript) := fun _ => trivial
    refine (awaits_waitLoop quiet begun).append (awaits_cleanupRespond.append (awaits_cancelAbtIo fun task inside => ?_))
    exact begun task (by omega)

/-- Whatever the pool does, nothing is given back while a task uses it, exactly when no
task is left behind. -/
theorem buffer_outlives_iff (outcomes : DataOutcomes) (rpc : Rpc) (chunkN : Nat) :
    (∀ state, Reachable (script outcomes rpc chunkN) state → state.Safe uses) ↔ Outlives outcomes rpc chunkN :=
  (safe_iff_ordered (awaits_script rpc)).trans (ordered_script rpc)

/-- Everything works but the first of two chunks. -/
def firstFails : DataOutcomes where
  getInput := true
  bulkCreate := true
  bulkAccess := true
  pull _ := true
  taskCreate _ := true
  eventualWait _ := true
  ioSize task := if task = 0 then -Errno.eio else 1
  push _ := true
  respond := true
  taskFreeJoins := true

/-- The buffer goes while the second task may still write it to disk. -/
theorem second_task_left_behind : ¬∀ state, Reachable (script firstFails .write 2) state → state.Safe uses := by
  intro safe
  have ordered := (safe_iff_ordered (awaits_script .write)).mp safe
  obtain ⟨_, end_⟩ := (ordered_script .write).mp ordered rfl rfl rfl
  have works : ∀ task < 2, ¬Fails firstFails (pulls firstFails .write) task := fun task _ failed => failed.elim nofun nofun
  have collected := (end_ works).resolve_left nofun
  exact absurd ((collected 0 (by decide)).2 (by decide)) (by decide)

end GekkoFwd.Proofs.BufferLifetime
