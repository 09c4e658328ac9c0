import GekkoFwd.Proofs.NamespaceTree

/-! Several clients that create the same path, with their messages interleaved in any
order. A daemon takes every creation it gets, so that as many calls succeed as send
one. -/

namespace GekkoFwd.Proofs.ExclusiveCreate
open RpcProgram ClientOps ClientSpec MergeLaws NamespaceTree

/-- A call that is meant to fail when the path exists. -/
inductive Creation (deployment : Deployment) where
  | mkdir (client : Client deployment) (mode : Mode)
  | openExcl (client : Client deployment) (mode : Mode) (flags : OpenFlags)

namespace Creation
variable {deployment : Deployment}

def client : Creation deployment → Client deployment
  | .mkdir client _ | .openExcl client _ _ => client

/-- The mode that the daemon gets. -/
def type : Creation deployment → Mode
  | .mkdir _ mode => mode ||| Mode.ifdir
  | .openExcl _ mode _ => mode ||| Mode.ifreg

def run (path : Str) : Creation deployment → Prog (SysResult Unit)
  | .mkdir client mode => ClientOps.mkdir client path mode
  | .openExcl client mode flags => gkfsOpen client path mode flags

/-- Permissions without a file type, and `O_CREAT|O_EXCL` without the flags that
`gkfs_open` does not support. -/
def Valid : Creation deployment → Prop
  | .mkdir _ mode => mode &&& Mode.ifmt = 0
  | .openExcl _ mode flags => mode &&& Mode.ifmt = 0 ∧ flags.oCreat ∧ flags.oExcl ∧ !flags.oPath ∧ !flags.oAppend ∧ !flags.oDirectory

end Creation

section Deliveries
variable {deployment : Deployment} {pools : Nat → IoPool} {client : Client deployment} {path : Str} {cluster : Cluster}

theorem deliver_forwardStat (up : cluster.Up) (client : Client deployment)
    (passed : (cluster.mdb (deployment.metadataHost path)).get .default deployment.ndebug path ≠ .error .assertion) :
    (Cluster.server deployment pools).deliver (forwardStat client path) cluster =
      (.pure (((cluster.mdb (deployment.metadataHost path)).get .default deployment.ndebug path).mapError statErrno), cluster) := by
  simp only [forwardStat, Program.bind_eq, Program.call_bind, Server.deliver, Server.handleAll, client.locateFileMetadata_eq,
    handle_stat up passed, Cluster.serving, Cluster.serve, List.headD_cons, Daemon.rpcSrvStat]
  cases (cluster.mdb (deployment.metadataHost path)).get .default deployment.ndebug path with
  | ok value => rfl
  | error error => cases error <;> rfl

theorem deliver_getMetadata_ok (up : cluster.Up) {md : Metadata} (found : entry deployment cluster path = .ok md) :
    (Cluster.server deployment pools).deliver (getMetadata client path false) cluster = (.pure (.ok md), cluster) := by
  obtain ⟨value, read, parsed⟩ := bind_eq_ok found
  rw [getMetadata, Program.bind_eq, Server.deliver_bind _ rfl, deliver_forwardStat up client (by rw [read]; rintro ⟨⟩), read]
  simp only [Except.mapError, Program.pure_bind, parseAttr, parsed, Program.pure_eq, Program.bind_eq, Bool.false_and,
    Bool.false_eq_true, if_false]

theorem deliver_getMetadata_missing (up : cluster.Up) (missing : (cluster.mdb (deployment.metadataHost path)).lookup path = none) :
    (Cluster.server deployment pools).deliver (getMetadata client path false) cluster = (.pure (.error Errno.enoent), cluster) := by
  have read : (cluster.mdb (deployment.metadataHost path)).get .default deployment.ndebug path = .error .notFound :=
    MetadataDb.get_of_lookup_none missing
  rw [getMetadata, Program.bind_eq, Server.deliver_bind _ rfl, deliver_forwardStat up client (by rw [read]; rintro ⟨⟩), read]
  rfl

/-- The parent is there, and the creation goes out. -/
theorem deliver_gkfsCreate (up : cluster.Up) {mode type : Mode} (typed : nodeMode mode = .ok type)
    (parent : IsDirectory deployment cluster (Path.dirname path)) :
    (Cluster.server deployment pools).deliver (gkfsCreate client path mode) cluster = (forwardCreate client path type, cluster) := by
  obtain ⟨md, found, directory⟩ := parent
  rw [gkfsCreate, typed]
  simp only [Program.bind_eq]
  rw [Server.deliver_bind _ rfl, checkParentDir, Program.bind_eq, Server.deliver_bind _ rfl, deliver_getMetadata_ok up found]
  simp only [Program.pure_bind, directory, if_true, Program.pure_eq]

/-- The daemon takes a creation whether or not the path is there. -/
theorem deliver_forwardCreate (up : cluster.Up) {type : Mode} (canonical : Path.Canonical path)
    (typed : Mode.isReg type ∨ Mode.isDir type) :
    ∃ after, (Cluster.server deployment pools).deliver (forwardCreate client path type) cluster = (.pure (.ok ()), after) ∧
      Created deployment path type cluster after := by
  refine ⟨_, ?_, rfl⟩
  have taken : (Cluster.server deployment pools).handle (deployment.metadataHost path) (.create path type) cluster =
      (some 0, cluster.setDb (deployment.metadataHost path) ((cluster.mdb (deployment.metadataHost path)).merge path
        (.create ((Metadata.ofMode type).serialize .default)))) :=
    Cluster.handle_of_some (up _) (by rw [Cluster.serve, rpcSrvCreate_ok _ canonical typed])
  simp only [forwardCreate, Program.bind_eq, Program.call_bind, Server.deliver, Server.handleAll, client.locateFileMetadata_eq, taken,
    List.headD_cons, ne_eq, not_true_eq_false, if_false, Program.pure_eq]

theorem gkfsOpen_excl {mode : Mode} {flags : OpenFlags} (valid : (Creation.openExcl client mode flags).Valid) :
    gkfsOpen client path mode flags = (getMetadata client path false).bind fun answer =>
      match answer with
      | .error errno => if errno ≠ Errno.enoent then .pure (.error errno) else gkfsCreate client path (mode ||| Mode.ifreg)
      | .ok _ => .pure (.error Errno.eexist) := by
  obtain ⟨_, create, exclusive, noPath, noAppend, noDirectory⟩ := valid
  rw [Bool.not_eq_true'] at noPath noAppend noDirectory
  rw [gkfsOpen, noPath, noAppend]
  simp only [Bool.false_eq_true, if_false, Program.bind_eq]
  congr 1
  funext answer
  cases answer with
  | error errno => simp [create, noDirectory]
  | ok md => simp [exclusive]

theorem deliver_gkfsOpen_missing (up : cluster.Up) {mode : Mode} {flags : OpenFlags} (valid : (Creation.openExcl client mode flags).Valid)
    (missing : (cluster.mdb (deployment.metadataHost path)).lookup path = none) :
    (Cluster.server deployment pools).deliver (gkfsOpen client path mode flags) cluster =
      (gkfsCreate client path (mode ||| Mode.ifreg), cluster) := by
  rw [gkfsOpen_excl valid, Server.deliver_bind _ rfl, deliver_getMetadata_missing up missing, Program.pure_bind]
  rfl

theorem deliver_gkfsOpen_exists (up : cluster.Up) {mode : Mode} {flags : OpenFlags} (valid : (Creation.openExcl client mode flags).Valid)
    {md : Metadata} (found : entry deployment cluster path = .ok md) :
    (Cluster.server deployment pools).deliver (gkfsOpen client path mode flags) cluster = (.pure (.error Errno.eexist), cluster) := by
  rw [gkfsOpen_excl valid, Server.deliver_bind _ rfl, deliver_getMetadata_ok up found, Program.pure_bind]

end Deliveries

/-- The creations in the batch that a program is about to send. -/
def creationsIn {α : Type} : Prog α → Nat
  | .post requests _ => requests.countP fun posted =>
    match posted.2 with
    | .create _ _ => true
    | _ => false
  | _ => 0

/-- The messages of all calls, delivered in any order. `late` counts the creations that
reached the host when the path was there already. -/
inductive Run {n : Nat} {deployment : Deployment} (path : Str) (creations : Fin n → Creation deployment) (start : Cluster) :
    (late : Nat) → Cluster → (Fin n → Prog (SysResult Unit)) → Prop where
  | start : Run path creations start 0 start fun i => (creations i).run path
  | deliver {late : Nat} {cluster : Cluster} {programs : Fin n → Prog (SysResult Unit)}
      (before : Run path creations start late cluster programs) (pools : Nat → IoPool) (who : Fin n) :
      Run path creations start
        (late + if path ∈ cluster.mdb (deployment.metadataHost path) then creationsIn (programs who) else 0)
        ((Cluster.server deployment pools).deliver (programs who) cluster).2
        (Function.update programs who ((Cluster.server deployment pools).deliver (programs who) cluster).1)

/-- How far a call has come. -/
inductive Stage where
  | asking
  | checking
  | creating
  | created
  | refused
  deriving DecidableEq

def Stage.program {deployment : Deployment} (path : Str) (creation : Creation deployment) : Stage → Prog (SysResult Unit)
  | .asking => creation.run path
  | .checking => gkfsCreate creation.client path creation.type
  | .creating => forwardCreate creation.client path creation.type
  | .created => .pure (.ok ())
  | .refused => .pure (.error Errno.eexist)

section Runs
variable {n : Nat} {deployment : Deployment} {path : Str} {creations : Fin n → Creation deployment} {start cluster after : Cluster}
  {late : Nat} {programs : Fin n → Prog (SysResult Unit)} {stages : Fin n → Stage}

/-- The path is missing and no call has returned, or it is there and each creation that
was delivered has made a call succeed. -/
def Progress (deployment : Deployment) (path : Str) (cluster : Cluster) (stages : Fin n → Stage) (late : Nat) : Prop :=
  ((cluster.mdb (deployment.metadataHost path)).lookup path = none ∧ (∀ i, stages i ≠ .created ∧ stages i ≠ .refused) ∧ late = 0) ∨
    ∃ cell md, (cluster.mdb (deployment.metadataHost path)).lookup path = some cell ∧ Holds false Signed cell md ∧
      (Finset.univ.filter fun i => stages i = .created).card = late + 1

structure Invariant (path : Str) (creations : Fin n → Creation deployment) (cluster : Cluster)
    (programs : Fin n → Prog (SysResult Unit)) (late : Nat) (stages : Fin n → Stage) : Prop where
  programs : ∀ i, programs i = (stages i).program path (creations i)
  up : cluster.Up
  parent : IsDirectory deployment cluster (Path.dirname path)
  progress : Progress deployment path cluster stages late

theorem nodeMode_or_type {mode type : Mode} (plain : mode &&& Mode.ifmt = 0) (known : type = Mode.ifreg ∨ type = Mode.ifdir) :
    nodeMode (mode ||| type) = .ok (mode ||| type) ∧ (mode ||| type) &&& Mode.ifmt = type := by
  have masked : (mode ||| type) &&& Mode.ifmt = type := by
    rw [BitVec.and_or_distrib_right, plain]
    rcases known with rfl | rfl <;> decide
  refine ⟨?_, masked⟩
  simp only [nodeMode, masked]
  rcases known with rfl | rfl <;> rfl

theorem Creation.Valid.typed {creation : Creation deployment} (valid : creation.Valid) :
    nodeMode creation.type = .ok creation.type ∧ (Mode.isReg creation.type ∨ Mode.isDir creation.type) := by
  cases creation with
  | mkdir client mode =>
    obtain ⟨typed, masked⟩ := nodeMode_or_type valid (.inr rfl)
    exact ⟨typed, .inr (beq_iff_eq.mpr masked)⟩
  | openExcl client mode flags =>
    obtain ⟨typed, masked⟩ := nodeMode_or_type valid.1 (.inl rfl)
    exact ⟨typed, .inl (beq_iff_eq.mpr masked)⟩

theorem card_update {who : Fin n} (before : stages who ≠ .created) :
    (Finset.univ.filter fun i => Function.update stages who .created i = .created).card =
      (Finset.univ.filter fun i => stages i = .created).card + 1 := by
  have inserted : (Finset.univ.filter fun i => Function.update stages who .created i = .created) =
      insert who (Finset.univ.filter fun i => stages i = .created) := by
    ext i
    by_cases same : i = who
    · simp [same]
    · simp [same]
  rw [inserted, Finset.card_insert_of_notMem (by simpa using before)]

theorem filter_update {who : Fin n} {next : Stage} (before : stages who ≠ .created) (next_ne : next ≠ .created) :
    (Finset.univ.filter fun i => Function.update stages who next i = .created) = Finset.univ.filter fun i => stages i = .created := by
  ext i
  by_cases same : i = who
  · simp [same, before, next_ne]
  · simp [same]

theorem programs_update {who : Fin n} (next : Stage) (each : ∀ i, programs i = (stages i).program path (creations i)) (i : Fin n) :
    Function.update programs who (next.program path (creations who)) i =
      (Function.update stages who next i).program path (creations i) := by
  by_cases same : i = who
  · subst same
    simp
  · simp [same, each i]

/-- A message that creates nothing takes its call to another stage. -/
theorem Invariant.advance (invariant : Invariant path creations cluster programs late stages) {pools : Nat → IoPool} {who : Fin n}
    {next : Stage} (sent : (Cluster.server deployment pools).deliver (programs who) cluster = (next.program path (creations who), cluster))
    (quiet : creationsIn (programs who) = 0) (before : stages who ≠ .created) (next_ne : next ≠ .created)
    (refused : next = .refused → (cluster.mdb (deployment.metadataHost path)).lookup path ≠ none) :
    ∃ stages, Invariant path creations ((Cluster.server deployment pools).deliver (programs who) cluster).2
      (Function.update programs who ((Cluster.server deployment pools).deliver (programs who) cluster).1)
      (late + if path ∈ cluster.mdb (deployment.metadataHost path) then creationsIn (programs who) else 0) stages := by
  rw [sent, quiet, ite_self, Nat.add_zero]
  refine ⟨Function.update stages who next, programs_update next invariant.programs, invariant.up, invariant.parent, ?_⟩
  rcases invariant.progress with ⟨missing, waiting, none⟩ | ⟨cell, md, found, holds, counted⟩
  · refine .inl ⟨missing, fun i => ?_, none⟩
    by_cases same : i = who
    · subst same
      rw [Function.update_self]
      exact ⟨next_ne, fun refusing => refused refusing missing⟩
    · rw [Function.update_of_ne same]
      exact waiting i
  · exact .inr ⟨cell, md, found, holds, by rw [filter_update before next_ne, counted]⟩

/-- A creation is taken and makes its call succeed. -/
theorem Invariant.create (invariant : Invariant path creations cluster programs late stages) (canonical : Path.Canonical path)
    (notRoot : path ≠ ['/']) {pools : Nat → IoPool} {who : Fin n} (valid : (creations who).Valid) (creating : stages who = .creating) :
    ∃ stages, Invariant path creations ((Cluster.server deployment pools).deliver (programs who) cluster).2
      (Function.update programs who ((Cluster.server deployment pools).deliver (programs who) cluster).1)
      (late + if path ∈ cluster.mdb (deployment.metadataHost path) then creationsIn (programs who) else 0) stages := by
  have program : programs who = forwardCreate (creations who).client path (creations who).type := by
    rw [invariant.programs who, creating]
    rfl
  have before : stages who ≠ .created := by
    rw [creating]
    decide
  have one : creationsIn (programs who) = 1 := by
    rw [program]
    rfl
  obtain ⟨after, sent, created⟩ :=
    @deliver_forwardCreate deployment pools (creations who).client path cluster invariant.up _ canonical valid.typed.2
  rw [← program] at sent
  have now := lookup_created created (deployment.metadataHost path) path
  rw [if_pos ⟨rfl, rfl⟩] at now
  rw [sent, one]
  refine ⟨Function.update stages who .created, programs_update .created invariant.programs, ?_, ?_, ?_⟩
  · rw [created]
    exact invariant.up
  · obtain ⟨md, found, directory⟩ := invariant.parent
    refine ⟨md, (entry_congr ?_).trans found, directory⟩
    rw [lookup_created created, if_neg fun both => dirname_ne_self canonical notRoot both.2]
  · right
    rcases invariant.progress with ⟨missing, waiting, none⟩ | ⟨cell, md, found, holds, counted⟩
    · refine ⟨_, _, ?_, .created (recorded_ofMode (creations who).type), ?_⟩
      · rw [now, MetadataDb.cell, missing]
        rfl
      · have nobody : (Finset.univ.filter fun i => stages i = .created) = ∅ := by
          rw [Finset.filter_eq_empty_iff]
          exact fun i _ => (waiting i).1
        have absent : path ∉ cluster.mdb (deployment.metadataHost path) := AList.lookup_eq_none.mp missing
        rw [card_update before, nobody, if_neg absent, none]
        rfl
    · refine ⟨_, md, now, ?_, ?_⟩
      · rw [MetadataDb.cell_of_lookup found]
        exact .merge holds rfl holds.recorded.size
      · rw [card_update before, counted, if_pos (mem_iff_lookup.mpr ⟨cell, found⟩)]

/-- The first message of a call: `mkdir` does not ask for the path. -/
theorem deliver_run {pools : Nat → IoPool} {creation : Creation deployment} (valid : creation.Valid) (up : cluster.Up)
    (parent : IsDirectory deployment cluster (Path.dirname path))
    (progress : Progress deployment path cluster stages late) :
    creationsIn (creation.run path) = 0 ∧ ∃ next : Stage,
      (Cluster.server deployment pools).deliver (creation.run path) cluster = (next.program path creation, cluster) ∧
        next ≠ .created ∧ (next = .refused → (cluster.mdb (deployment.metadataHost path)).lookup path ≠ none) := by
  cases creation with
  | mkdir client mode =>
    have typed := valid.typed.1
    refine ⟨?_, .creating, deliver_gkfsCreate up typed parent, by simp, by simp⟩
    rw [Creation.run, ClientOps.mkdir, gkfsCreate, show mode ||| Mode.ifdir = (Creation.mkdir client mode).type from rfl, typed]
    rfl
  | openExcl client mode flags =>
    refine ⟨?_, ?_⟩
    · rw [Creation.run, gkfsOpen_excl valid]
      rfl
    · rcases progress with ⟨missing, _⟩ | ⟨cell, md, found, holds, _⟩
      · exact ⟨.checking, deliver_gkfsOpen_missing up valid missing, by simp, by simp⟩
      · refine ⟨.refused, deliver_gkfsOpen_exists up valid (entry_of_holds found (holds.release _)), by simp, fun _ missing => ?_⟩
        cases found.symm.trans missing

theorem Invariant.deliver (invariant : Invariant path creations cluster programs late stages) (valid : ∀ i, (creations i).Valid)
    (canonical : Path.Canonical path) (notRoot : path ≠ ['/']) (pools : Nat → IoPool) (who : Fin n) :
    ∃ stages, Invariant path creations ((Cluster.server deployment pools).deliver (programs who) cluster).2
      (Function.update programs who ((Cluster.server deployment pools).deliver (programs who) cluster).1)
      (late + if path ∈ cluster.mdb (deployment.metadataHost path) then creationsIn (programs who) else 0) stages := by
  have program := invariant.programs who
  have returned : ∀ {result : SysResult Unit}, programs who = .pure result → ∃ stages,
      Invariant path creations ((Cluster.server deployment pools).deliver (programs who) cluster).2
        (Function.update programs who ((Cluster.server deployment pools).deliver (programs who) cluster).1)
        (late + if path ∈ cluster.mdb (deployment.metadataHost path) then creationsIn (programs who) else 0) stages := by
    intro result done
    have still : (Cluster.server deployment pools).deliver (programs who) cluster = (programs who, cluster) := by
      rw [done]
      rfl
    have none : creationsIn (programs who) = 0 := by
      rw [done]
      rfl
    rw [still, none, ite_self, Nat.add_zero, Function.update_eq_self]
    exact ⟨stages, invariant⟩
  cases stage : stages who with
  | asking =>
    rw [stage] at program
    obtain ⟨quiet, next, sent, next_ne, refused⟩ :=
      @deliver_run _ _ _ _ _ _ pools _ (valid who) invariant.up invariant.parent invariant.progress
    exact invariant.advance (program ▸ sent) (program ▸ quiet) (by simp [stage]) next_ne refused
  | checking =>
    rw [stage] at program
    have sent : (Cluster.server deployment pools).deliver (programs who) cluster =
        (Stage.creating.program path (creations who), cluster) := by
      rw [program]
      exact deliver_gkfsCreate invariant.up (valid who).typed.1 invariant.parent
    have quiet : creationsIn (programs who) = 0 := by
      rw [program, Stage.program, gkfsCreate, (valid who).typed.1]
      rfl
    exact invariant.advance sent quiet (by simp [stage]) (by simp) (by simp)
  | creating => exact invariant.create canonical notRoot (valid who) stage
  | created | refused =>
    rw [stage] at program
    exact returned program

theorem Run.invariant (run : Run path creations start late cluster programs) (valid : ∀ i, (creations i).Valid)
    (canonical : Path.Canonical path) (notRoot : path ≠ ['/']) (up : start.Up)
    (absent : (start.mdb (deployment.metadataHost path)).lookup path = none)
    (parent : IsDirectory deployment start (Path.dirname path)) :
    ∃ stages, Invariant path creations cluster programs late stages := by
  induction run with
  | start => exact ⟨fun _ => .asking, fun _ => rfl, up, parent, .inl ⟨absent, fun _ => ⟨nofun, nofun⟩, rfl⟩⟩
  | deliver _ pools who ih =>
    obtain ⟨stages, invariant⟩ := ih
    exact invariant.deliver valid canonical notRoot pools who

theorem waits_program {creation : Creation deployment} (valid : creation.Valid) {stage : Stage}
    (finished : (stage.program path creation).waits = false) : stage = .created ∨ stage = .refused := by
  cases stage with
  | created => exact .inl rfl
  | refused => exact .inr rfl
  | creating => cases finished
  | checking =>
    rw [Stage.program, gkfsCreate, valid.typed.1] at finished
    cases finished
  | asking =>
    cases creation with
    | mkdir client mode =>
      rw [Stage.program, Creation.run, ClientOps.mkdir, gkfsCreate,
        show mode ||| Mode.ifdir = (Creation.mkdir client mode).type from rfl, valid.typed.1] at finished
      cases finished
    | openExcl client mode flags =>
      rw [Stage.program, Creation.run, gkfsOpen_excl valid] at finished
      cases finished

/-- Each call that did not succeed was refused, and there is one success more than late
creations. -/
theorem Invariant.finished (invariant : Invariant path creations cluster programs late stages) (valid : ∀ i, (creations i).Valid)
    (some : 0 < n) (finished : ∀ i, (programs i).waits = false) :
    (∀ i, programs i = .pure (.ok ()) ∧ stages i = .created ∨ programs i = .pure (.error Errno.eexist) ∧ stages i = .refused) ∧
      (Finset.univ.filter fun i => stages i = .created).card = late + 1 := by
  have ended : ∀ i, stages i = .created ∨ stages i = .refused := by
    intro i
    have done := finished i
    rw [invariant.programs i] at done
    exact waits_program (valid i) done
  refine ⟨fun i => ?_, ?_⟩
  · refine (ended i).imp (fun created => ⟨?_, created⟩) fun refused => ⟨?_, refused⟩
    · rw [invariant.programs i, created]
      rfl
    · rw [invariant.programs i, refused]
      rfl
  · rcases invariant.progress with ⟨_, waiting, _⟩ | ⟨_, _, _, _, counted⟩
    · rcases ended ⟨0, some⟩ with created | refused
      · exact absurd created (waiting _).1
      · exact absurd refused (waiting _).2
    · exact counted

theorem exec_mkdir (canonical : Path.Canonical path) (client : Client deployment) {mode : Mode} (plain : mode &&& Mode.ifmt = 0)
    (pools : Nat → IoPool) (up : cluster.Up) :
    ((Cluster.server deployment pools).exec (ClientOps.mkdir client path mode) cluster).1 = some (.ok ()) ↔
      IsDirectory deployment cluster (Path.dirname path) := by
  have typed := @Creation.Valid.typed deployment (.mkdir client mode) plain
  constructor
  · intro succeeded
    rw [ClientOps.mkdir, gkfsCreate, show mode ||| Mode.ifdir = (Creation.mkdir client mode).type from rfl, typed.1] at succeeded
    obtain ⟨answer, between, checked, rest⟩ := Server.exec_bind_eq_some _ (Prod.ext succeeded rfl)
    cases answer with
    | error => cases rest
    | ok =>
      obtain ⟨answer, _, asked, last⟩ := Server.exec_bind_eq_some _ checked
      cases answer with
      | error => cases last
      | ok md =>
        refine ⟨md, (entry_of_getMetadata asked).2, ?_⟩
        by_contra other
        dsimp only at last
        rw [if_neg other] at last
        cases last
  · intro parent
    obtain ⟨after, sent, _⟩ := @deliver_forwardCreate deployment pools client path cluster up _ canonical typed.2
    have checked := @deliver_gkfsCreate deployment pools client path cluster up (mode ||| Mode.ifdir) _ typed.1 parent
    rw [ClientOps.mkdir, Server.exec_deliver, checked, Server.exec_deliver, sent]
    rfl

/-- Exactly one of several creations succeeds when no creation reaches the host after
another one. -/
theorem Run.one_succeeds_iff (run : Run path creations start late after programs) (some : 0 < n) (canonical : Path.Canonical path)
    (valid : ∀ i, (creations i).Valid) (up : start.Up) (absent : (start.mdb (deployment.metadataHost path)).lookup path = none)
    (parent : IsDirectory deployment start (Path.dirname path)) (finished : ∀ i, (programs i).waits = false) :
    (∃ i, programs i = .pure (.ok ()) ∧ ∀ j, j ≠ i → programs j = .pure (.error Errno.eexist)) ↔ late = 0 := by
  have notRoot : path ≠ ['/'] := by
    rintro rfl
    obtain ⟨md, found, _⟩ := parent
    cases (entry_of_lookup_none absent).symm.trans found
  obtain ⟨stages, invariant⟩ := run.invariant valid canonical notRoot up absent parent
  obtain ⟨results, counted⟩ := invariant.finished valid some finished
  constructor
  · rintro ⟨i, succeeded, others⟩
    have only : (Finset.univ.filter fun j => stages j = .created) = {i} := by
      ext j
      simp only [Finset.mem_filter, Finset.mem_univ, true_and, Finset.mem_singleton]
      rcases results j with ⟨done, created⟩ | ⟨done, refused⟩
      · refine iff_of_true created ?_
        by_contra different
        cases done.symm.trans (others j different)
      · refine iff_of_false (by simp [refused]) ?_
        rintro rfl
        cases succeeded.symm.trans done
    rw [only, Finset.card_singleton] at counted
    omega
  · rintro rfl
    obtain ⟨i, only⟩ := Finset.card_eq_one.mp counted
    have created : ∀ j, stages j = .created ↔ j = i := fun j => by
      simpa using Finset.ext_iff.mp only j
    refine ⟨i, ?_, fun j different => ?_⟩
    · rcases results i with ⟨done, _⟩ | ⟨_, refused⟩
      · exact done
      · cases refused.symm.trans ((created i).mpr rfl)
    · rcases results j with ⟨_, success⟩ | ⟨done, _⟩
      · exact absurd ((created j).mp success) different
      · exact done

end Runs

/-- Of several creations of a path that is absent exactly one succeeds when no creation
reaches the host after another one, and a `mkdir` of a path that exists succeeds like one of
a path that does not. -/
theorem exclusive_iff_no_late_creation {deployment : Deployment} {path : Str} (canonical : Path.Canonical path) :
    (∀ (n : Nat) (creations : Fin n → Creation deployment) (start after : Cluster) (late : Nat) (programs : Fin n → Prog (SysResult Unit)),
      0 < n → (∀ i, (creations i).Valid) → start.Up → (start.mdb (deployment.metadataHost path)).lookup path = none →
      IsDirectory deployment start (Path.dirname path) → Run path creations start late after programs → (∀ i, (programs i).waits = false) →
      ((∃ i, programs i = .pure (.ok ()) ∧ ∀ j, j ≠ i → programs j = .pure (.error Errno.eexist)) ↔ late = 0)) ∧
    ∀ (client : Client deployment) (mode : Mode) (pools : Nat → IoPool) (cluster : Cluster), cluster.Up → mode &&& Mode.ifmt = 0 →
      path ∈ cluster.mdb (deployment.metadataHost path) →
        (((Cluster.server deployment pools).exec (ClientOps.mkdir client path mode) cluster).1 = some (.ok ()) ↔
          IsDirectory deployment cluster (Path.dirname path)) := by
  refine ⟨fun n creations start after late programs some valid up absent parent run finished => ?_,
    fun client mode pools cluster up plain _ => exec_mkdir canonical client plain pools up⟩
  exact run.one_succeeds_iff some canonical valid up absent parent finished

/-- Two clients make the same directory one after the other, and both are told that
they have made it. -/
theorem both_mkdirs_succeed : ∃ late after programs,
    Run "/d".toList (fun _ : Fin 2 => Creation.mkdir (.first (.pair List.length)) 0o755) .fresh late after programs ∧
      ∀ i, programs i = .pure (.ok ()) := by
  refine ⟨_, _, _, (((Run.start.deliver default 0).deliver default 0).deliver default 1).deliver default 1, fun i => ?_⟩
  match i with
  | 0 => rfl
  | 1 => rfl

private def exclusively : Creation (.pair List.length) := .openExcl (.first _) 0o644 { oCreat := true, oExcl := true }

theorem exclusive_iff_no_late_creation_opens : ∃ after programs,
    Run "/f".toList (fun _ : Fin 2 => exclusively) .fresh 0 after programs ∧
      ∃ i, programs i = .pure (.ok ()) ∧ ∀ j, j ≠ i → programs j = .pure (.error Errno.eexist) := by
  have run : Run "/f".toList (fun _ : Fin 2 => exclusively) .fresh _ _ _ :=
    (((Run.start.deliver default 0).deliver default 0).deliver default 0).deliver default 1
  have valid : exclusively.Valid := ⟨by decide, by decide, by decide, by decide, by decide, by decide⟩
  refine ⟨_, _, run, ((exclusive_iff_no_late_creation ⟨["f".toList], by decide, rfl⟩).1 _ _ _ _ _ _ (by decide) (fun _ => valid)
    Cluster.up_fresh rfl ⟨_, entry_of_holds rfl (.created (recorded_ofMode _)), rfl⟩ run ?_).mpr rfl⟩
  intro i
  match i with
  | 0 => rfl
  | 1 => rfl

end GekkoFwd.Proofs.ExclusiveCreate
