import Mathlib.Data.List.FinRange
import Mathlib.Data.List.Perm.Lattice
import Mathlib.Logic.Relation
import Mathlib.Order.Interval.Finset.Fin
import Mathlib.Order.Lattice.Nat
import GekkoFwd.Proofs.SizeRefinement
import GekkoFwd.Proofs.WriteSteps

/-! Any interleaving of concurrent writes against their sequential executions, which are
interleavings themselves. A run keeps a log of the slices that have been put; since slices
of disjoint ranges commute, the stores depend only on which slices there are. -/

namespace GekkoFwd.Proofs.ConcurrentWrites
open ChunkPartition IoPartition StorageSpec DataPath WriteOutcome ReadAfterWrite WriteSteps SizeRefinement ConcurrentWrite

variable {deployment : Deployment} {path : Str} {call : Write deployment} {done others : Nat → Prop} {phase : Phase}

/-- What is known of a call when its chunks in `done` have got what arrives. -/
def PhaseOk (path : Str) (call : Write deployment) (done : Nat → Prop) : Phase → Prop
  | .called => ∀ c, ¬done c
  | .waiting jobs => (∀ c, done c → c ∈ call.range.split.blocks) ∧ ∃ targets request final,
      Dispatch call.client path call.range targets request final ∧
      List.Forall₂ (JobOk path call request done) targets jobs
  | .returned result => (∃ targets request final, Dispatch call.client path call.range targets request final ∧
      result = ClientOps.collectSizes (targets.map fun target => some (writeAnswer path call target))) ∧
      ∀ c, done c ↔ c ∈ call.range.split.blocks

theorem PhaseOk.congr (valid : PhaseOk path call done phase) (same : ∀ c, done c ↔ others c) :
    PhaseOk path call others phase := by
  obtain rfl : done = others := funext fun c => propext (same c)
  exact valid

theorem forall₂_split {α β : Type} {related : α → β → Prop} {items : List α} {before after : List β} {value : β}
    (each : List.Forall₂ related items (before ++ value :: after)) :
    ∃ left item right, items = left ++ item :: right ∧ List.Forall₂ related left before ∧ related item value ∧
      List.Forall₂ related right after := by
  induction before generalizing items with
  | nil =>
    cases each with
    | cons first rest => exact ⟨[], _, _, rfl, .nil, first, rest⟩
  | cons other before ih =>
    cases each with
    | cons first rest =>
      obtain ⟨left, item, right, rfl, earlier, here, later⟩ := ih rest
      exact ⟨_ :: left, item, right, rfl, .cons first earlier, here, later⟩

/-- The first message of a call posts one request for every target. -/
theorem phaseOk_update {requests : List (Nat × DataIn)} (fresh : ∀ c, ¬done c)
    (split : Transfer.inputs (.forwardWrite call.appendFlag (.ofNat 64 call.offset) (.ofNat 64 call.data.length)
      (.ofNat 64 call.data.length + .ofNat 64 call.offset)) call.client path = some requests) :
    PhaseOk path call done (.waiting (requests.map fun request => .posted request.1 request.2)) := by
  obtain ⟨targets, request, final, dispatch⟩ := exists_dispatch call.client path call.range
  cases split.symm.trans (inputs_forwardWrite dispatch rfl call.appendFlag)
  refine ⟨fun c impossible => absurd impossible (fresh c), targets, request, final, dispatch, ?_⟩
  rw [List.map_map, List.forall₂_map_right_iff, List.forall₂_same]
  exact fun target _ => ⟨rfl, rfl, fun c _ => fresh c⟩

/-- A step of one request, seen from its call. -/
theorem phaseOk_job {cluster after : Cluster} {before later : List Job} {job stepped : Job} (file : IsFilePath path)
    (narrow : call.range.split.last < 2 ^ 32) (healthy : Healthy cluster)
    (valid : PhaseOk path call done (.waiting (before ++ job :: later)))
    (step : JobStep (pwriteCall call) cluster job after stepped) :
    (after = cluster ∧ PhaseOk path call done (.waiting (before ++ stepped :: later))) ∨
      ∃ c ∈ call.range.split.blocks, ¬done c ∧ Healthy after ∧ contents after = put path call c (contents cluster) ∧
        PhaseOk path call (fun other => done other ∨ other = c) (.waiting (before ++ stepped :: later)) := by
  obtain ⟨bounded, targets, request, final, dispatch, jobs⟩ := valid
  obtain ⟨left, target, right, rfl, earlier, here, rest⟩ := forall₂_split jobs
  rcases here.step file narrow dispatch (by simp) healthy step with ⟨rfl, kept⟩ | ⟨c, own, fresh, kept, changed, valid⟩
  · exact .inl ⟨rfl, bounded, _, request, final, dispatch, List.rel_append earlier (.cons kept rest)⟩
  · obtain ⟨inside, owner⟩ := mem_mine.mp own
    refine .inr ⟨c, inside, fresh, kept, changed, ?_, _, request, final, dispatch, ?_⟩
    · rintro other (seen | rfl)
      · exact bounded other seen
      · exact inside
    · -- the chunk belongs to no other target
      have away : ∀ other job, JobOk path call request done other job → other ≠ target →
          JobOk path call request (fun other => done other ∨ other = c) other job := by
        intro other job valid different
        refine valid.congr fun d member => ⟨.inl, fun seen => seen.resolve_right ?_⟩
        rintro rfl
        exact different ((mem_mine.mp member).2.symm.trans owner)
      have spread : ∀ {items : List Nat} {jobs : List Job}, (∀ other ∈ items, other ≠ target) →
          List.Forall₂ (JobOk path call request done) items jobs →
          List.Forall₂ (JobOk path call request fun other => done other ∨ other = c) items jobs :=
        fun apart each => ((List.forall₂_and_left ..).mpr ⟨apart, each⟩).imp fun _ _ both => away _ _ both.2 both.1
      obtain ⟨absent, distinct⟩ := List.nodup_middle.mp dispatch.distinct |> List.nodup_cons.mp
      have apart : ∀ other ∈ left ++ right, other ≠ target := fun other member same => absent (same ▸ member)
      exact List.rel_append (spread (fun other member => apart other (List.mem_append_left _ member)) earlier)
        (.cons valid (spread (fun other member => apart other (List.mem_append_right _ member)) rest))

/-- When every request has been answered the call returns what the client makes of the
answers, and all its chunks have got what arrives. -/
theorem phaseOk_finish {replies : List (Int × Word)} (valid : PhaseOk path call done (.waiting (replies.map .answered))) :
    PhaseOk path call done (.returned (ClientOps.collectSizes (replies.map some))) := by
  obtain ⟨bounded, targets, request, final, dispatch, jobs⟩ := valid
  rw [List.forall₂_map_right_iff] at jobs
  have answers : replies = targets.map (writeAnswer path call) := by
    have each := jobs.imp fun _ _ valid => valid.1.symm
    rw [← List.forall₂_map_left_iff, List.forall₂_eq_eq_eq] at each
    exact each.symm
  have all : ∀ target ∈ targets, ∀ c ∈ mine path call target, done c := by
    have each := jobs.imp fun _ _ valid => And.intro valid.2 trivial
    exact ((List.forall₂_and_left ..).mp each).1
  refine ⟨⟨targets, request, final, dispatch, by rw [answers, List.map_map]; rfl⟩, fun c => ⟨bounded c, fun inside => ?_⟩⟩
  have owner := (dispatch.mem_targets _).mpr ⟨c, call.range.split.mem_blocks.mp inside, rfl⟩
  exact all _ owner c (mem_mine.mpr ⟨inside, rfl⟩)

section Runs
variable {n : Nat} {calls : Fin n → Write deployment} {initial : Cluster} {old size : Nat} {state next : State n}
  {log : List (Fin n × Nat)}

/-! The recorded size. -/

/-- The ends of the ranges that have been announced are in the recorded size. -/
structure Sized (deployment : Deployment) (path : Str) (calls : Fin n → Write deployment) (old : Nat) (state : State n)
    (size : Nat) : Prop where
  up : state.cluster.Up
  keeps : Keeps (state.cluster.mdb (deployment.metadataHost path)) path (some size)
  least : old ≤ size
  most : size ≤ max old (Finset.univ.sup fun i => (calls i).offset + (calls i).data.length)
  announced : ∀ i, state.phases i ≠ .called → (calls i).offset + (calls i).data.length ≤ size

theorem sized_initial (calls : Fin n → Write deployment) (up : initial.Up)
    (file : Keeps (initial.mdb (deployment.metadataHost path)) path (some old)) :
    Sized deployment path calls old (.initial n initial) old :=
  ⟨up, file, Nat.le_refl _, Nat.le_max_left _ _, fun _ announced => absurd rfl announced⟩

theorem Sized.congr (sized : Sized deployment path calls old state size) (down : next.cluster.down = state.cluster.down)
    (db : next.cluster.mdb = state.cluster.mdb) (later : ∀ i, next.phases i ≠ .called → state.phases i ≠ .called) :
    Sized deployment path calls old next size :=
  ⟨fun host => by rw [down, sized.up host], db ▸ sized.keeps, sized.least, sized.most,
    fun i announced => sized.announced i (later i announced)⟩

/-- A call that has sent its first message stays announced. -/
theorem announced_update {i : Fin n} {phase : Phase} (before : state.phases i ≠ .called) (j : Fin n)
    (announced : Function.update state.phases i phase j ≠ .called) : state.phases j ≠ .called := by
  by_cases same : j = i
  · exact same ▸ before
  · rwa [Function.update_of_ne same] at announced

theorem Sized.update (sized : Sized deployment path calls old state size) {i : Fin n} (plain : (calls i).appendFlag = false)
    (phase : Phase) :
    Sized deployment path calls old
      ⟨state.cluster.setDb (deployment.metadataHost path) ((state.cluster.mdb (deployment.metadataHost path)).increaseSize path
        (.ofNat 64 (calls i).data.length + .ofNat 64 (calls i).offset) (calls i).appendFlag),
        Function.update state.phases i phase⟩ (max size ((calls i).offset + (calls i).data.length)) := by
  have inSup : (calls i).offset + (calls i).data.length ≤ Finset.univ.sup fun i => (calls i).offset + (calls i).data.length :=
    Finset.le_sup (f := fun i => (calls i).offset + (calls i).data.length) (Finset.mem_univ i)
  refine ⟨sized.up, ?_, sized.least.trans (Nat.le_max_left _ _),
    Nat.max_le.mpr ⟨sized.most, inSup.trans (Nat.le_max_right _ _)⟩, fun j announced => ?_⟩
  · rw [Cluster.mdb_setDb, Function.update_self, plain]
    exact sized.keeps.increaseSize (calls i).fits
  · by_cases same : j = i
    · rw [same]
      exact Nat.le_max_right _ _
    · have earlier : Function.update state.phases i phase j ≠ .called := announced
      rw [Function.update_of_ne same] at earlier
      exact (sized.announced j earlier).trans (Nat.le_max_left _ _)

theorem Sized.collapse (sized : Sized deployment path calls old state size) (host : Nat) (key : Str) (count : Nat) :
    Sized deployment path calls old
      ⟨state.cluster.setDb host ((state.cluster.mdb host).collapse .default deployment.ndebug key count), state.phases⟩ size := by
  refine ⟨sized.up, ?_, sized.least, sized.most, sized.announced⟩
  rw [Cluster.mdb_setDb]
  by_cases here : deployment.metadataHost path = host
  · subst here
    rw [Function.update_self]
    exact sized.keeps.collapse deployment.ndebug key count
  · rw [Function.update_of_ne here]
    exact sized.keeps

/-- The handler of a first message, while its daemon serves. -/
theorem handle_update {cluster : Cluster} (up : cluster.Up) (call : Write deployment) (path : Str) :
    Cluster.handle deployment (pwriteCall call).pools ((pwriteCall call).client.locateFileMetadata path)
        (.updateMetadentrySize path (.ofNat 64 (pwriteCall call).buf.length) (pwriteCall call).offset (pwriteCall call).appendFlag)
          cluster =
      (some (0, .ofNat 64 call.data.length + .ofNat 64 call.offset), cluster.setDb (deployment.metadataHost path)
        ((cluster.mdb (deployment.metadataHost path)).increaseSize path (.ofNat 64 call.data.length + .ofNat 64 call.offset)
          call.appendFlag)) := by
  rw [show (pwriteCall call).client.locateFileMetadata path = deployment.metadataHost path from call.client.locateFileMetadata_eq path]
  exact Cluster.handle_of_some (up _) rfl

/-- That is what the call does first when it is made on its own. -/
theorem announce_eq (call : Write deployment) (path : Str) (cluster : Cluster) :
    announce call.client path call.range call.appendFlag cluster = cluster.setDb (deployment.metadataHost path)
      ((cluster.mdb (deployment.metadataHost path)).increaseSize path (.ofNat 64 call.data.length + .ofNat 64 call.offset)
        call.appendFlag) := by
  rw [announce, call.client.locateFileMetadata_eq, Nat.add_comm, BitVec.ofNat_add]
  rfl

theorem JobStep.keeps {call : Call deployment} {cluster after : Cluster} {job stepped : Job}
    (step : JobStep call cluster job after stepped) : after.mdb = cluster.mdb ∧ after.down = cluster.down := by
  cases step <;> exact ⟨rfl, rfl⟩

theorem Sized.step (plain : ∀ i, (calls i).appendFlag = false) (sized : Sized deployment path calls old state size)
    (step : Step path (fun i => pwriteCall (calls i)) state next) : ∃ larger, Sized deployment path calls old next larger := by
  cases step with
  | @update i retSize after requests phase handled split =>
    cases handled.symm.trans (handle_update sized.up (calls i) path)
    exact ⟨_, sized.update (plain i) _⟩
  | job phase step =>
    obtain ⟨db, down⟩ := JobStep.keeps step
    exact ⟨size, sized.congr down db (announced_update (by rw [phase]; exact nofun))⟩
  | finish phase => exact ⟨size, sized.congr rfl rfl (announced_update (by rw [phase]; exact nofun))⟩
  | collapse host key count => exact ⟨size, sized.collapse host key count⟩

theorem Sized.run (plain : ∀ i, (calls i).appendFlag = false) (sized : Sized deployment path calls old state size)
    (steps : Relation.ReflTransGen (Step path fun i => pwriteCall (calls i)) state next) :
    ∃ larger, Sized deployment path calls old next larger := by
  induction steps with
  | refl => exact ⟨size, sized⟩
  | tail _ step ih =>
    obtain ⟨_, between⟩ := ih
    exact between.step plain step

/-- Once everything has been announced the size is the largest end. -/
theorem Sized.final (sized : Sized deployment path calls old state size) (all : ∀ i, state.phases i ≠ .called) :
    size = max old (Finset.univ.sup fun i => (calls i).offset + (calls i).data.length) :=
  Nat.le_antisymm sized.most (Nat.max_le.mpr ⟨sized.least, Finset.sup_le fun i _ => sized.announced i (all i)⟩)

/-! The contents. -/

/-- The stores after the slices of a log have been put. -/
def replay (path : Str) (calls : Fin n → Write deployment) (log : List (Fin n × Nat))
    (chunks : Nat → Str → Nat → Option (List Byte)) : Nat → Str → Nat → Option (List Byte) :=
  log.foldl (fun chunks event => put path (calls event.1) event.2 chunks) chunks

/-- What holds in every state of a run. -/
structure Invariant (path : Str) (calls : Fin n → Write deployment) (initial : Cluster) (state : State n)
    (log : List (Fin n × Nat)) : Prop where
  healthy : Healthy state.cluster
  distinct : log.Nodup
  replayed : contents state.cluster = replay path calls log (contents initial)
  phases : ∀ i, PhaseOk path (calls i) (fun c => (i, c) ∈ log) (state.phases i)

theorem invariant_initial (calls : Fin n → Write deployment) (healthy : Healthy initial) :
    Invariant path calls initial (.initial n initial) [] :=
  ⟨healthy, .nil, rfl, fun _ _ => List.not_mem_nil⟩

theorem phases_update {i : Fin n} {phase : Phase} {extended : List (Fin n × Nat)}
    (phases : ∀ j, PhaseOk path (calls j) (fun c => (j, c) ∈ log) (state.phases j))
    (kept : ∀ j ≠ i, ∀ c, (j, c) ∈ log ↔ (j, c) ∈ extended)
    (valid : PhaseOk path (calls i) (fun c => (i, c) ∈ extended) phase) (j : Fin n) :
    PhaseOk path (calls j) (fun c => (j, c) ∈ extended) (Function.update state.phases i phase j) := by
  by_cases same : j = i
  · subst same
    rw [Function.update_self]
    exact valid
  · rw [Function.update_of_ne same]
    exact (phases j).congr (kept j same)

/-- A step that leaves the stores alone. -/
theorem Invariant.advance (invariant : Invariant path calls initial state log) {i : Fin n} {phase : Phase} {cluster : Cluster}
    (stores : cluster.storage = state.cluster.storage) (down : cluster.down = state.cluster.down)
    (valid : PhaseOk path (calls i) (fun c => (i, c) ∈ log) phase) :
    Invariant path calls initial ⟨cluster, Function.update state.phases i phase⟩ log := by
  refine ⟨⟨fun backend => ?_, fun host => ?_⟩, invariant.distinct, ?_,
    phases_update invariant.phases (fun _ _ _ => Iff.rfl) valid⟩
  · rw [stores]
    exact invariant.healthy.stores backend
  · rw [down]
    exact invariant.healthy.up host
  · rw [← invariant.replayed]
    funext backend dir c
    rw [contents, stores, contents]

/-- A step that puts a slice. -/
theorem Invariant.extend (invariant : Invariant path calls initial state log) {i : Fin n} {phase : Phase} {cluster : Cluster}
    {c : Nat} (fresh : (i, c) ∉ log) (healthy : Healthy cluster)
    (changed : contents cluster = put path (calls i) c (contents state.cluster))
    (valid : PhaseOk path (calls i) (fun other => (i, other) ∈ log ∨ other = c) phase) :
    Invariant path calls initial ⟨cluster, Function.update state.phases i phase⟩ (log ++ [(i, c)]) := by
  refine ⟨healthy, ?_, ?_, phases_update invariant.phases ?_ ?_⟩
  · exact List.nodup_append'.mpr ⟨invariant.distinct, List.nodup_singleton _, by simpa using fresh⟩
  · rw [replay, List.foldl_concat, changed, invariant.replayed, replay]
  · intro j different d
    simp [different]
  · exact valid.congr fun other => by simp

variable (file : IsFilePath path) (narrow : ∀ i, (calls i).range.split.last < 2 ^ 32)
include file narrow

theorem Invariant.step (invariant : Invariant path calls initial state log)
    (step : Step path (fun i => pwriteCall (calls i)) state next) : ∃ extended, Invariant path calls initial next extended := by
  cases step with
  | @update i retSize after requests phase handled split =>
    have fresh := invariant.phases i
    rw [phase] at fresh
    cases handled.symm.trans (handle_update invariant.healthy.up (calls i) path)
    exact ⟨log, invariant.advance rfl rfl (phaseOk_update fresh split)⟩
  | @job i before later job stepped cluster phase step =>
    have valid := invariant.phases i
    rw [phase] at valid
    rcases phaseOk_job file (narrow i) invariant.healthy valid step with ⟨rfl, kept⟩ | ⟨c, _, fresh, healthy, changed, kept⟩
    · exact ⟨log, invariant.advance rfl rfl kept⟩
    · exact ⟨log ++ [(i, c)], invariant.extend fresh healthy changed kept⟩
  | @finish i replies phase =>
    have valid := invariant.phases i
    rw [phase] at valid
    exact ⟨log, invariant.advance rfl rfl (phaseOk_finish valid)⟩
  | collapse host key count =>
    exact ⟨log, ⟨invariant.healthy.stores, invariant.healthy.up⟩, invariant.distinct, invariant.replayed, invariant.phases⟩

theorem Invariant.run (invariant : Invariant path calls initial state log)
    (steps : Relation.ReflTransGen (Step path fun i => pwriteCall (calls i)) state next) :
    ∃ extended, Invariant path calls initial next extended := by
  induction steps with
  | refl => exact ⟨log, invariant⟩
  | tail _ step ih =>
    obtain ⟨_, between⟩ := ih
    exact between.step file narrow step

omit file narrow

/-- A call that has returned has put all its slices. -/
theorem Invariant.mem_log (invariant : Invariant path calls initial state log)
    (returned : ∀ i, ∃ result, state.phases i = .returned result) (i : Fin n) (c : Nat) :
    (i, c) ∈ log ↔ c ∈ (calls i).range.split.blocks := by
  obtain ⟨result, phase⟩ := returned i
  have valid := invariant.phases i
  rw [phase] at valid
  exact valid.2 c

theorem replay_perm {other : List (Fin n × Nat)} (disjoint : Pairwise fun i j => RangesDisjoint (calls i) (calls j))
    (inside : ∀ event ∈ log, event.2 ∈ (calls event.1).range.split.blocks) (perm : log.Perm other)
    (chunks : Nat → Str → Nat → Option (List Byte)) : replay path calls log chunks = replay path calls other chunks := by
  refine perm.foldl_eq' (fun first mem second mem' chunks => ?_) chunks
  by_cases same : first = second
  · rw [same]
  · refine put_comm ?_ (inside _ mem) (inside _ mem') chunks
    by_cases call : first.1 = second.1
    · exact .inl fun chunk => same (Prod.ext call chunk)
    · exact .inr (disjoint call)

/-- Runs to the end leave the same stores when the ranges are disjoint. -/
theorem contents_eq (disjoint : Pairwise fun i j => RangesDisjoint (calls i) (calls j)) {other : State n}
    {log' : List (Fin n × Nat)} (invariant : Invariant path calls initial state log)
    (invariant' : Invariant path calls initial other log') (returned : ∀ i, ∃ result, state.phases i = .returned result)
    (returned' : ∀ i, ∃ result, other.phases i = .returned result) : contents state.cluster = contents other.cluster := by
  have same : log.Perm log' := by
    refine (List.perm_ext_iff_of_nodup invariant.distinct invariant'.distinct).mpr ?_
    rintro ⟨i, c⟩
    rw [invariant.mem_log returned, invariant'.mem_log returned']
  rw [invariant.replayed, invariant'.replayed]
  exact replay_perm disjoint (fun event member => (invariant.mem_log returned event.1 event.2).mp member) same _

/-- The bytes after the slices of calls with disjoint ranges have been put. -/
theorem byteOf_replay (disjoint : Pairwise fun i j => RangesDisjoint (calls i) (calls j))
    (inside : ∀ event ∈ log, event.2 ∈ (calls event.1).range.split.blocks) (chunks : Nat → Str → Nat → Option (List Byte)) (x : Nat) :
    (∀ i, Covers (calls i) x → (i, x / chunksize) ∈ log → (dirName path).length ≤ LocalFs.nameMax →
        (calls i).arrived path (x / chunksize) = slice (calls i).range (calls i).data (x / chunksize) →
        byteOf deployment path (replay path calls log chunks) x = (calls i).data[x - (calls i).offset]?) ∧
      ((∀ i, ¬Covers (calls i) x) →
        Undisturbed (byteOf deployment path chunks x) (byteOf deployment path (replay path calls log chunks) x)) := by
  induction log using List.reverseRecOn with
  | nil => exact ⟨fun _ _ impossible => absurd impossible List.not_mem_nil, fun _ => .inl rfl⟩
  | append_singleton log last ih =>
    obtain ⟨covered, free⟩ := ih fun event member => inside event (List.mem_append_left _ member)
    have changed := @byteOf_put deployment path (calls last.1) last.2 (inside last (by simp)) (replay path calls log chunks) x
    rw [show replay path calls (log ++ [last]) chunks = put path (calls last.1) last.2
      (replay path calls log chunks) from List.foldl_concat ..]
    refine ⟨fun i covers member short whole => ?_, fun none => ?_⟩
    · by_cases here : last = (i, x / chunksize)
      · subst here
        exact byteOf_put_whole short covers whole
      · have earlier : (i, x / chunksize) ∈ log := by simpa [Ne.symm here] using member
        have held := covered i covers earlier short whole
        have present : x - (calls i).offset < (calls i).data.length := Nat.sub_lt_left_of_lt_add covers.1 covers.2
        rcases changed with (same | ⟨hole, _⟩) | ⟨covers', value⟩
        · exact same.trans held
        · rw [held, List.getElem?_eq_getElem present] at hole
          cases hole
        · by_cases own : last.1 = i
          · rw [value, own]
          · have ranges := disjoint own
            simp only [RangesDisjoint, Covers] at ranges covers covers'
            omega
    · rcases changed with kept | ⟨covers, _⟩
      · exact (free none).trans kept
      · exact absurd covers (none last.1)

end Runs

/-! Every call can return. -/

section Completion
variable {n : Nat} {calls : Fin n → Write deployment} {initial : Cluster} {state : State n} {log : List (Fin n × Nat)} {i : Fin n}
  {goal : Phase → Prop}

/-- Some run takes one call to such a phase and leaves the phases of the others. -/
def Leads (path : Str) (calls : Fin n → Write deployment) (state : State n) (i : Fin n) (goal : Phase → Prop) : Prop :=
  ∃ cluster phase, goal phase ∧
    Relation.ReflTransGen (Step path fun i => pwriteCall (calls i)) state ⟨cluster, Function.update state.phases i phase⟩

theorem leads_refl (reached : goal (state.phases i)) : Leads path calls state i goal :=
  ⟨state.cluster, state.phases i, reached, by rw [Function.update_eq_self]⟩

theorem leads_step {phase : Phase} {cluster : Cluster} (reached : goal phase)
    (step : Step path (fun i => pwriteCall (calls i)) state ⟨cluster, Function.update state.phases i phase⟩) :
    Leads path calls state i goal :=
  ⟨cluster, phase, reached, .single step⟩

variable (file : IsFilePath path) (narrow : ∀ i, (calls i).range.split.last < 2 ^ 32)
include file narrow

theorem Leads.trans {last : Phase → Prop} (first : Leads path calls state i goal) (invariant : Invariant path calls initial state log)
    (rest : ∀ between log, Invariant path calls initial between log → goal (between.phases i) →
      Leads path calls between i last) : Leads path calls state i last := by
  obtain ⟨cluster, phase, reached, steps⟩ := first
  obtain ⟨_, kept⟩ := invariant.run file narrow steps
  obtain ⟨final, phase', ended, more⟩ := rest _ _ kept (show goal (Function.update state.phases i phase i) by rwa [Function.update_self])
  refine ⟨final, phase', ended, steps.trans ?_⟩
  rwa [Function.update_idem] at more

/-- The tasks of a running handler can all be run. -/
theorem leads_tasks (invariant : Invariant path calls initial state log) {before after : List Job} {target : Nat} {input : DataIn}
    {tasks : List SrvSplit.Task} {eventuals : List (SrvSplit.Task × Int)}
    (phase : state.phases i = .waiting (before ++ .running target input tasks eventuals :: after))
    {rest : List SrvSplit.Task} (among : rest ⊆ tasks) :
    Leads path calls state i fun phase => ∃ set, (∀ task ∈ rest, task ∈ set.map Prod.fst) ∧
      phase = .waiting (before ++ .running target input tasks set :: after) := by
  induction rest with
  | nil => exact leads_refl ⟨eventuals, nofun, phase⟩
  | cons task rest ih =>
    have created := among List.mem_cons_self
    refine (ih fun other member => among (List.mem_cons_of_mem _ member)).trans file narrow invariant ?_
    rintro between log reached ⟨set, done, running⟩
    by_cases ran : task ∈ set.map Prod.fst
    · exact leads_refl ⟨set, List.forall_mem_cons.mpr ⟨ran, done⟩, running⟩
    · have valid := reached.phases i
      rw [running] at valid
      obtain ⟨_, targets, request, final, dispatch, jobs⟩ := valid
      obtain ⟨_, _, _, _, _, ⟨rfl, rfl, rfl, _⟩, _⟩ := forall₂_split jobs
      obtain ⟨store, stores, _⟩ := put_task file (narrow i) (dispatch.addressed _) reached.healthy created
      refine leads_step ⟨set ++ [(task, (calls i).value path task.chnkId.toNat)], ?_, rfl⟩ (.job running (.task created ran stores))
      rw [List.map_append]
      exact List.forall_mem_cons.mpr ⟨by simp, fun other member => List.mem_append_left _ (done other member)⟩

/-- Every request can be answered. -/
theorem leads_answer (invariant : Invariant path calls initial state log) {before after : List Job} {job : Job}
    (phase : state.phases i = .waiting (before ++ job :: after)) :
    Leads path calls state i fun phase => ∃ reply, phase = .waiting (before ++ .answered reply :: after) := by
  have running : ∀ {state : State n} {log target input tasks eventuals}, Invariant path calls initial state log →
      state.phases i = .waiting (before ++ .running target input tasks eventuals :: after) →
      Leads path calls state i fun phase => ∃ reply, phase = .waiting (before ++ .answered reply :: after) := by
    intro state log target input tasks eventuals invariant phase
    refine (leads_tasks file narrow invariant phase (List.Subset.refl tasks)).trans file narrow invariant ?_
    rintro between log reached ⟨set, all, running⟩
    exact leads_step ⟨_, rfl⟩ (.job running (.answer all))
  cases job with
  | answered reply => exact leads_refl ⟨reply, phase⟩
  | running target input tasks eventuals => exact running invariant phase
  | posted target input =>
    have valid := invariant.phases i
    rw [phase] at valid
    obtain ⟨_, targets, request, final, dispatch, jobs⟩ := valid
    obtain ⟨left, _, right, rfl, _, ⟨rfl, rfl, _⟩, _⟩ := forall₂_split jobs
    have accepted : Leads path calls state i fun phase => ∃ tasks,
        phase = .waiting (before ++ .running target (request target) tasks [] :: after) :=
      leads_step ⟨_, rfl⟩ (.job phase (.accept (dispatch.runs _ (by simp))))
    refine accepted.trans file narrow invariant ?_
    rintro between log reached ⟨tasks, started⟩
    exact running reached started

theorem leads_answers (invariant : Invariant path calls initial state log) (replies : List (Int × Word)) {jobs : List Job}
    (phase : state.phases i = .waiting (replies.map .answered ++ jobs)) :
    Leads path calls state i fun phase => ∃ replies : List (Int × Word), phase = .waiting (replies.map .answered) := by
  induction jobs generalizing state log replies with
  | nil => exact leads_refl ⟨replies, by rw [phase, List.append_nil]⟩
  | cons job jobs ih =>
    refine (leads_answer file narrow invariant phase).trans file narrow invariant ?_
    rintro between log reached ⟨reply, answered⟩
    exact ih reached (replies ++ [reply]) (by rw [answered, List.map_append, List.append_assoc]; rfl)

theorem leads_return (invariant : Invariant path calls initial state log) (i : Fin n) :
    Leads path calls state i fun phase => ∃ result, phase = .returned result := by
  have waiting : ∀ {state : State n} {log jobs}, Invariant path calls initial state log →
      state.phases i = .waiting jobs → Leads path calls state i fun phase => ∃ result, phase = .returned result := by
    intro state log jobs invariant phase
    refine (leads_answers file narrow invariant [] phase).trans file narrow invariant ?_
    rintro between log reached ⟨replies, answered⟩
    exact leads_step ⟨_, rfl⟩ (.finish answered)
  cases phase : state.phases i with
  | returned result => exact leads_refl ⟨result, phase⟩
  | waiting jobs => exact waiting invariant phase
  | called =>
    obtain ⟨targets, request, final, dispatch⟩ := exists_dispatch (calls i).client path (calls i).range
    have announced : Leads path calls state i fun phase => ∃ jobs, phase = .waiting jobs :=
      leads_step ⟨_, rfl⟩ (.update phase (handle_update invariant.healthy.up (calls i) path)
        (inputs_forwardWrite dispatch rfl (calls i).appendFlag))
    refine announced.trans file narrow invariant ?_
    rintro between log reached ⟨jobs, sent⟩
    exact waiting reached sent

/-- No run gets stuck: from every state all calls can return. -/
theorem can_return (invariant : Invariant path calls initial state log) :
    ∃ final, Relation.ReflTransGen (Step path fun i => pwriteCall (calls i)) state final ∧
      ∀ i, ∃ result, final.phases i = .returned result := by
  have some_calls : ∀ order : List (Fin n), ∃ final,
      Relation.ReflTransGen (Step path fun i => pwriteCall (calls i)) state final ∧
      ∀ i ∈ order, ∃ result, final.phases i = .returned result := by
    intro order
    induction order with
    | nil => exact ⟨state, .refl, nofun⟩
    | cons i order ih =>
      obtain ⟨between, steps, returned⟩ := ih
      obtain ⟨_, reached⟩ := invariant.run file narrow steps
      obtain ⟨cluster, _, ⟨result, rfl⟩, more⟩ := leads_return file narrow reached i
      refine ⟨_, steps.trans more, fun j member => ?_⟩
      by_cases same : j = i
      · exact ⟨result, by rw [same]; exact Function.update_self ..⟩
      · obtain ⟨earlier, phase⟩ := returned j (List.mem_of_ne_of_mem same member)
        exact ⟨earlier, (Function.update_of_ne same ..).trans phase⟩
  obtain ⟨final, steps, returned⟩ := some_calls (List.finRange n)
  exact ⟨final, steps, fun i => returned i (List.mem_finRange i)⟩

end Completion

/-! A call that is made on its own takes the same steps. -/

section Sequential
variable {cluster : Cluster} {target : Nat} {request : Nat → DataIn}

/-- The steps of one request. -/
def JobRun (call : Call deployment) (cluster : Cluster) (job : Job) (after : Cluster) (stepped : Job) : Prop :=
  Relation.ReflTransGen (fun before after : Cluster × Job => JobStep call before.1 before.2 after.1 after.2)
    (cluster, job) (after, stepped)

theorem JobRun.head {call : Call deployment} {between after : Cluster} {job next stepped : Job}
    (step : JobStep call cluster job between next) (steps : JobRun call between next after stepped) :
    JobRun call cluster job after stepped := Relation.ReflTransGen.head (b := (between, next)) step steps

theorem JobRun.tail {call : Call deployment} {between after : Cluster} {job next stepped : Job}
    (steps : JobRun call cluster job between next) (step : JobStep call between next after stepped) :
    JobRun call cluster job after stepped := Relation.ReflTransGen.tail (b := (between, next)) steps step

section Requests
variable (file : IsFilePath path) (narrow : call.range.split.last < 2 ^ 32)
include file narrow

/-- The tasks of a handler, run one after the other. -/
theorem runTasks_steps (addressed : Addresses call.range (call.client.locateData path) deployment.hosts path target (request target))
    {rest : List SrvSplit.Task} {eventuals : List (SrvSplit.Task × Int)}
    (among : rest ⊆ tasksFrom call.range.split 0 (mine path call target)) (distinct : (eventuals.map Prod.fst ++ rest).Nodup)
    (healthy : Healthy cluster) :
    ∃ results store, Daemon.runTasks deployment.ndebug (request target).path
        (Daemon.pullAll (request target) call.data (tasksFrom call.range.split 0 (mine path call target))) (call.pools target) rest
        (cluster.storage (deployment.backend target)) = (some results, store) ∧ results.map Prod.fst = rest ∧
      Healthy (cluster.setStore (deployment.backend target) store) ∧
      JobRun (pwriteCall call)
        cluster (.running target (request target) (tasksFrom call.range.split 0 (mine path call target)) eventuals)
        (cluster.setStore (deployment.backend target) store)
        (.running target (request target) (tasksFrom call.range.split 0 (mine path call target)) (eventuals ++ results)) := by
  induction rest generalizing cluster eventuals with
  | nil =>
    have same : cluster.setStore (deployment.backend target) (cluster.storage (deployment.backend target)) = cluster := by
      rw [Cluster.setStore, Function.update_eq_self]
    refine ⟨[], _, rfl, rfl, by rwa [same], ?_⟩
    rw [same, List.append_nil]
    exact .refl
  | cons task rest ih =>
    have created := among List.mem_cons_self
    have unset : task ∉ eventuals.map Prod.fst := fun seen => List.disjoint_of_nodup_append distinct seen List.mem_cons_self
    obtain ⟨between, stores, kept, _⟩ := put_task file narrow addressed healthy created
    obtain ⟨results, store, ran, keys, last, steps⟩ := @ih (cluster.setStore (deployment.backend target) between)
      (eventuals ++ [(task, call.value path task.chnkId.toNat)]) (fun other member => among (List.mem_cons_of_mem _ member))
      (by simpa using distinct) kept
    have final : (cluster.setStore (deployment.backend target) between).setStore (deployment.backend target) store =
        cluster.setStore (deployment.backend target) store := by
      simp only [Cluster.setStore, Function.update_idem]
    rw [Cluster.storage_setStore, Function.update_self] at ran
    rw [final, List.append_assoc] at steps
    rw [final] at last
    refine ⟨(task, call.value path task.chnkId.toNat) :: results, store, ?_, by rw [List.map_cons, keys], last, ?_⟩
    · rw [Daemon.runTasks, stores]
      simp only [ran]
    · exact .head (.task created unset stores) steps

variable {targets : List Nat} {final : Nat → SrvSplit.State} (dispatch : Dispatch call.client path call.range targets request final)
include dispatch

/-- What a handler does in one go, its tasks do step by step. -/
theorem handle_steps (member : target ∈ targets) (healthy : Healthy cluster) :
    ∃ reply after, (Cluster.server deployment call.pools).handle target (.writeData (request target) call.data) cluster =
        (some reply, after) ∧ Healthy after ∧
      JobRun (pwriteCall call) cluster (.posted target (request target)) after (.answered reply) := by
  have created : (final target).tasks = tasksFrom call.range.split 0 (mine path call target) := dispatch.tasks target member
  have perm := (call.pools target).order_perm (tasksFrom call.range.split 0 (mine path call target))
  have distinct : ((call.pools target).order (tasksFrom call.range.split 0 (mine path call target))).Nodup := by
    refine perm.nodup_iff.mpr (List.Nodup.of_map (·.chnkId.toNat) ?_)
    rw [map_chnkId]
    exact owned_nodup _ _ _
  obtain ⟨results, store, ran, keys, kept, steps⟩ := @runTasks_steps deployment path call cluster target request file narrow
    (dispatch.addressed target) _ [] (fun task among => perm.mem_iff.mp among) distinct healthy
  have served : Cluster.serve deployment call.pools target (.writeData (request target) call.data) cluster =
      (some (Daemon.awaitWrites ((tasksFrom call.range.split 0 (mine path call target)).map fun task => (results.lookup task).getD 0)),
        cluster.setStore (deployment.backend target) store) := by
    simp only [Cluster.serve, Daemon.rpcSrvWrite, dispatch.runs target member, Option.elim_some, Daemon.finishWrite, created, ran]
  have accept : JobStep (pwriteCall call) cluster (.posted target (request target)) cluster
      (.running target (request target) (tasksFrom call.range.split 0 (mine path call target)) []) := by
    rw [← created]
    exact .accept (dispatch.runs target member)
  refine ⟨_, _, Cluster.handle_of_some (healthy.up target) served, kept, (JobRun.head accept steps).tail ?_⟩
  exact .answer fun task among => by rw [List.nil_append, keys]; exact perm.mem_iff.mpr among

end Requests

variable {n : Nat} {calls : Fin n → Write deployment} {state : State n} {i : Fin n}

/-- The state after one call has moved on. -/
def move (state : State n) (i : Fin n) (cluster : Cluster) (phase : Phase) : State n :=
  ⟨cluster, Function.update state.phases i phase⟩

theorem phases_move (state : State n) (i : Fin n) (cluster : Cluster) (phase : Phase) :
    (move state i cluster phase).phases i = phase := Function.update_self ..

theorem move_move (state : State n) (i : Fin n) (between cluster : Cluster) (first phase : Phase) :
    move (move state i between first) i cluster phase = move state i cluster phase := by
  simp only [move, Function.update_idem]

theorem move_self {phase : Phase} (same : state.phases i = phase) : move state i state.cluster phase = state := by
  rw [move, ← same, Function.update_eq_self]

/-- The steps of a request are steps of its call. -/
theorem job_steps {before later : List Job} {job stepped : Job} {after : Cluster}
    (phase : state.phases i = .waiting (before ++ job :: later))
    (steps : JobRun (pwriteCall (calls i)) state.cluster job after stepped) :
    Relation.ReflTransGen (Step path fun i => pwriteCall (calls i)) state
      (move state i after (.waiting (before ++ stepped :: later))) := by
  have each : ∀ first second : Cluster × Job, JobStep (pwriteCall (calls i)) first.1 first.2 second.1 second.2 →
      Step path (fun i => pwriteCall (calls i)) (move state i first.1 (.waiting (before ++ first.2 :: later)))
        (move state i second.1 (.waiting (before ++ second.2 :: later))) := by
    intro first second step
    have taken : Step path (fun i => pwriteCall (calls i)) (move state i first.1 (.waiting (before ++ first.2 :: later)))
        (move (move state i first.1 (.waiting (before ++ first.2 :: later))) i second.1 (.waiting (before ++ second.2 :: later))) :=
      .job (phases_move ..) step
    rwa [move_move] at taken
  have lifted : Relation.ReflTransGen (Step path fun i => pwriteCall (calls i))
      (move state i state.cluster (.waiting (before ++ job :: later))) (move state i after (.waiting (before ++ stepped :: later))) :=
    Relation.ReflTransGen.lift (fun point : Cluster × Job => move state i point.1 (.waiting (before ++ point.2 :: later)))
      each _ _ steps
  rwa [move_self phase] at lifted

variable (file : IsFilePath path) (narrow : ∀ i, (calls i).range.split.last < 2 ^ 32)
include file narrow

/-- The requests of a call, handled one after the other. -/
theorem handleAll_steps {targets : List Nat} {final : Nat → SrvSplit.State}
    (dispatch : Dispatch (calls i).client path (calls i).range targets request final) {hosts : List Nat} (among : hosts ⊆ targets)
    (healthy : Healthy state.cluster) (replies : List (Int × Word))
    (phase : state.phases i = .waiting (replies.map .answered ++ hosts.map fun host => .posted host (request host))) :
    ∃ replies : List (Int × Word), Relation.ReflTransGen (Step path fun i => pwriteCall (calls i)) state
      (move state i ((Cluster.server deployment (calls i).pools).handleAll
        (hosts.map fun host => (host, Request.writeData (request host) (calls i).data)) state.cluster).2
        (.waiting (replies.map .answered))) := by
  induction hosts generalizing state replies with
  | nil =>
    rw [List.map_nil, List.append_nil] at phase
    exact ⟨replies, by rw [List.map_nil, RpcProgram.Server.handleAll, move_self phase]⟩
  | cons host hosts ih =>
    obtain ⟨reply, after, handled, kept, steps⟩ := handle_steps file (narrow i) dispatch (among List.mem_cons_self) healthy
    have first := @job_steps deployment path n calls state i _ _ _ _ _ phase steps
    obtain ⟨all, rest⟩ := @ih (move state i after (.waiting (replies.map .answered ++ .answered reply ::
        hosts.map fun host => .posted host (request host)))) (fun other member => among (List.mem_cons_of_mem _ member)) kept
      (replies ++ [reply]) (by rw [phases_move, List.map_append, List.append_assoc, List.map_singleton, List.singleton_append])
    rw [move_move] at rest
    refine ⟨all, first.trans ?_⟩
    rw [List.map_cons, RpcProgram.Server.handleAll, handled]
    exact rest

/-- A call on its own is one of the runs. -/
theorem exec_steps (healthy : Healthy state.cluster) (phase : state.phases i = .called) :
    ∃ result, Relation.ReflTransGen (Step path fun i => pwriteCall (calls i)) state
      (move state i ((calls i).exec path state.cluster) (.returned result)) := by
  obtain ⟨targets, request, final, dispatch⟩ := exists_dispatch (calls i).client path (calls i).range
  have first : Step path (fun i => pwriteCall (calls i)) state
      (move state i (announce (calls i).client path (calls i).range (calls i).appendFlag state.cluster)
        (.waiting ((targets.map fun target => (target, request target)).map fun request => .posted request.1 request.2))) := by
    rw [announce_eq]
    exact .update phase (handle_update healthy.up (calls i) path) (inputs_forwardWrite dispatch rfl (calls i).appendFlag)
  rw [List.map_map] at first
  obtain ⟨replies, steps⟩ := handleAll_steps file narrow dispatch (List.Subset.refl _) (healthy.announce ..) []
    (phases_move state i (announce (calls i).client path (calls i).range (calls i).appendFlag state.cluster) _)
  rw [move_move] at steps
  have last : Step path (fun i => pwriteCall (calls i))
      (move state i ((calls i).exec path state.cluster) (.waiting (replies.map .answered)))
      (move (move state i ((calls i).exec path state.cluster) (.waiting (replies.map .answered))) i
        ((calls i).exec path state.cluster) (.returned (ClientOps.collectSizes (replies.map some)))) := .finish (phases_move ..)
  rw [move_move] at last
  refine ⟨_, .tail (.head first ?_) last⟩
  rw [Write.exec, Write.run, show BitVec.ofNat 64 (calls i).offset = .ofNat 64 (calls i).range.offset from rfl,
    exec_gkfsPwrite_eq healthy.up dispatch rfl]
  exact steps

/-- Calls made one after the other are one of the runs. -/
theorem sequential_steps {initial : Cluster} {log : List (Fin n × Nat)} (invariant : Invariant path calls initial state log)
    {order : List (Fin n)} (distinct : order.Nodup) (called : ∀ i ∈ order, state.phases i = .called) :
    ∃ final, final.cluster = order.foldl (fun cluster i => (calls i).exec path cluster) state.cluster ∧
      Relation.ReflTransGen (Step path fun i => pwriteCall (calls i)) state final ∧
      ∀ i, (∃ result, final.phases i = .returned result) ∨ i ∉ order ∧ final.phases i = state.phases i := by
  induction order generalizing state log with
  | nil => exact ⟨state, rfl, .refl, fun i => .inr ⟨List.not_mem_nil, rfl⟩⟩
  | cons i order ih =>
    obtain ⟨absent, distinct⟩ := List.nodup_cons.mp distinct
    obtain ⟨result, first⟩ := exec_steps file narrow invariant.healthy (called i List.mem_cons_self)
    obtain ⟨_, kept⟩ := invariant.run file narrow first
    have later : ∀ j ∈ order, Function.update state.phases i (.returned result) j = .called := by
      intro j member
      have different : j ≠ i := fun same => absent (same ▸ member)
      rw [Function.update_of_ne different]
      exact called j (List.mem_cons_of_mem _ member)
    obtain ⟨final, stores, rest, phases⟩ := ih kept distinct later
    refine ⟨final, stores, first.trans rest, fun j => (phases j).elim .inl ?_⟩
    rintro ⟨other, same⟩
    by_cases here : j = i
    · exact .inl ⟨result, by rw [same, here]; exact Function.update_self ..⟩
    · exact .inr ⟨List.not_mem_cons_of_ne_of_not_mem here other, same.trans (Function.update_of_ne here ..)⟩

end Sequential

/-- What a call returns when every local call stores all it is given. -/
theorem PhaseOk.full {result : SysResult Word} (valid : PhaseOk path call done (.returned result))
    (complete : ∀ host, Complete (call.pools host)) (short : (dirName path).length ≤ LocalFs.nameMax) :
    result = .ok (.ofNat 64 call.data.length) := by
  obtain ⟨⟨targets, request, final, dispatch, rfl⟩, _⟩ := valid
  have whole : ∀ c ∈ call.range.split.blocks, ∃ count, call.outcome path c = .stored count ∧ call.range.split.size c ≤ count := by
    intro c _
    obtain ⟨count, stores, most⟩ := complete (call.client.locateData path c) (.ofNat 64 c)
    have fits := call.range.split.pos_add_size_le c
    rw [call.range.split_block] at fits
    exact ⟨count, stores, by omega⟩
  have succeeds : ¬call.Fails path := by
    rintro (long | ⟨c, block, errno, failed⟩)
    · exact absurd short (Nat.not_le.mpr long)
    · obtain ⟨count, stores, _⟩ := whole c block
      cases failed.symm.trans stores
  have counts : call.count path = call.data.length := by
    rw [Write.count, ← call.sum_size]
    refine congrArg _ (List.map_congr_left fun c block => ?_)
    obtain ⟨count, stores, most⟩ := whole c block
    rw [Write.takes, stores]
    exact Nat.min_eq_right most
  rw [collectSizes_stored dispatch succeeds, counts]

/-- Two hosts with an empty file. -/
def emptyFile : Cluster := Cluster.fresh.setDb (Deployment.metadataHost (.pair List.length) "/file".toList)
  ((Cluster.fresh.mdb (Deployment.metadataHost (.pair List.length) "/file".toList)).merge "/file".toList
    (.create ((Metadata.ofMode Mode.ifreg).serialize .default)))

theorem healthy_emptyFile : Healthy emptyFile := ⟨healthy_fresh.stores, healthy_fresh.up⟩

theorem keeps_emptyFile :
    Keeps (emptyFile.mdb (Deployment.metadataHost (.pair List.length) "/file".toList)) "/file".toList (some 0) :=
  ⟨_, Metadata.ofMode Mode.ifreg, rfl, .created (MergeLaws.recorded_ofMode _), rfl, rfl⟩

/-- A write to the first bytes of a chunk and one to those behind them. -/
def neighbours : Fin 2 → Write (.pair List.length)
  | 0 => ⟨.first _, false, 0, [1, 2, 3], by decide, by decide, fun _ => frugalPool⟩
  | 1 => ⟨.first _, false, 3, [4, 5], by decide, by decide, fun _ => frugalPool⟩

theorem one_byte_ne_nil : [(7 : Byte)] ≠ [] := List.cons_ne_nil _ _

theorem one_byte_fits : 0 + [(7 : Byte)].length < 2 ^ 63 := by decide

/-- A single write whose local call stores nothing. -/
def unstored : Fin 1 → Write (.pair List.length) := fun _ =>
  ⟨.first _, false, 0, [7], one_byte_ne_nil, one_byte_fits, fun _ => ⟨id, List.Perm.refl, fun _ => .stored 0, fun _ _ => .ok 1⟩⟩

end GekkoFwd.Proofs.ConcurrentWrites
