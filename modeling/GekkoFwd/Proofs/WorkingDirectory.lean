import GekkoFwd.WorkingDir
import GekkoFwd.Proofs.ClientSpec
import GekkoFwd.Proofs.ExternalCalls

/-! The working directory over the calls of a process where there are no links: which text
is stored, and when relative paths can be put behind it. -/

namespace GekkoFwd.Proofs.WorkingDirectory
open Lib.NamingTree GekkoFwd.Path PathResolver PathText PathResolution ResolverWalk RpcProgram WorkingDir
open ExternalCalls (fullPath)

/-! Lexical normal forms. -/

theorem valid_lexical (path : Str) : ∀ name ∈ lexical path, IsName name := by
  have plain : ∀ name ∈ names path, name ≠ [] ∧ '/' ∉ name := by
    rw [← map_tokens]
    generalize all : tokens path = behind
    induction behind generalizing path with
    | nil => simp
    | cons token behind ih =>
      obtain ⟨name, rest⟩ := token
      obtain ⟨first, rfl⟩ := first_of_tokens all
      exact List.forall_mem_cons.mpr ⟨⟨first.nonempty, first.plain⟩, ih rest rfl⟩
  suffices ∀ place, (∀ name ∈ place, IsName name) → ∀ name ∈ (names path).foldl lexicalStep place, IsName name from this [] (by simp)
  generalize names path = all at plain
  induction all with
  | nil => exact fun place valid => valid
  | cons name all ih =>
    intro place valid
    obtain ⟨⟨nonempty, separate⟩, others⟩ := List.forall_mem_cons.mp plain
    refine ih others _ ?_
    rw [lexicalStep]
    split
    · exact valid
    · split
      · exact fun part member => valid part (List.mem_of_mem_dropLast member)
      · exact isName_concat valid ⟨nonempty, separate, ‹_›, ‹_›⟩

section below
variable {mount below : List Str} (mounted : ∀ name ∈ mount, IsName name) (deeper : mount ≠ []) (valid : ∀ name ∈ below, IsName name)
include mounted deeper valid

theorem lexical_mounted : lexical (join mount ++ join below) = mount ++ below := by
  have both : ∀ name ∈ mount ++ below, IsName name := fun name member => (List.mem_append.mp member).elim (mounted name) (valid name)
  have rests : names (join below) = below := by
    cases below with
    | nil => rfl
    | cons name below => rw [join_eq_text (by simp)]; simpa [names] using names_text valid separated_nil
  have separated : Separated (join below) := by
    cases below with
    | nil => exact separated_slash []
    | cons name below => rw [join_eq_text (by simp), text_cons]; exact separated_slash _
  rw [lexical, join_eq_text deeper, names_text mounted separated, rests, foldl_lexicalStep both]
  rfl

theorem mountedPath_join : mountedPath (join mount) (join below) = join (mount ++ below) := by
  have whole : join (mount ++ below) = join mount ++ text below := by
    rw [join_eq_text (by simp [deeper]), join_eq_text deeper, text_append]
  cases below with
  | nil =>
    have slash : hasTrailingSlash (join mount ++ join []) = true := by simp [hasTrailingSlash, join]
    rw [mountedPath, if_pos slash, List.append_nil, join, List.dropLast_concat]
  | cons name below =>
    have both : ∀ part ∈ mount ++ name :: below, IsName part :=
      fun part member => (List.mem_append.mp member).elim (mounted part) (valid part)
    have canonical : Canonical (join (mount ++ name :: below)) := ⟨_, both, rfl⟩
    have unended := canonical.hasTrailingSlash.resolve_left (mt (join_eq_root both).mp (by simp))
    rw [mountedPath, @join_eq_text (name :: below) (by simp), ← whole, unended, if_neg (by simp)]

end below

/-! The resolver without links. -/

def Linkless (system : System) : Prop := ∀ place, ¬ system.tree.IsLink place

section linkless
variable {system : System} (linkless : Linkless system) {mount : List Str} {resolveLastLink : Bool}
include linkless

/-- A name that does not stop the resolver is put behind the place. -/
theorem follow_down {start place : List Str} {rooted : Bool} {name : Str} {behind : List (Component Str)}
    (arrived : follow system mount resolveLastLink start false (.down name :: behind) = .arrived place rooted) :
    follow system mount resolveLastLink (start ++ [name]) false behind = .arrived place rooted := by
  rw [follow] at arrived
  by_cases inside : mount <+: start
  · rwa [if_pos inside] at arrived
  rw [if_neg inside] at arrived
  cases present : system.tree.lookup (start ++ [name]) with
  | none =>
    simp only [present] at arrived
    cases arrived
  | some node =>
    simp only [present] at arrived
    cases node with
    | directory => exact arrived
    | file =>
      -- The resolver comes to its end at a file only if nothing is left of the path.
      dsimp only at arrived
      split at arrived
      next ended =>
        subst ended
        exact arrived
      next => cases arrived
    | link absolute target => exact absurd ⟨absolute, target, present⟩ (linkless _)

theorem follow_linkless {start place : List Str} {rooted : Bool} {path : Str}
    (arrived : follow system mount resolveLastLink start false (parts path) = .arrived place rooted) :
    place = (names path).foldl lexicalStep start ∧ rooted = false := by
  rw [← map_tokens]
  generalize all : tokens path = behind
  induction behind generalizing path start with
  | nil =>
    rcases parts_of_tokens_nil all with none | slash
    · rw [none] at arrived
      cases arrived
      exact ⟨rfl, rfl⟩
    · rw [slash] at arrived
      cases arrived
      exact ⟨rfl, rfl⟩
  | cons token behind ih =>
    obtain ⟨name, rest⟩ := token
    obtain ⟨first, rfl⟩ := first_of_tokens all
    rw [first.parts] at arrived
    rw [List.map_cons, List.foldl_cons]
    by_cases dot : name = ['.']
    · subst dot
      exact ih arrived rfl
    by_cases dotDot : name = ['.', '.']
    · subst dotDot
      exact ih arrived rfl
    rw [part_of_name ⟨first.nonempty, first.plain, dot, dotDot⟩] at arrived
    rw [lexicalStep, if_neg dot, if_neg dotDot]
    exact ih (follow_down linkless arrived) rfl

variable (named : Named system) (mounted : ∀ name ∈ mount, IsName name) (deeper : mount ≠ []) {path : Str}
  (plain : excluded path = false) (small : (names path).length < 2 ^ 32)
include named mounted deeper plain small

/-- The resolver answers with the normal form, or with a path that leads nowhere. -/
theorem resolve_linkless {internal : Bool} {resolved : Str}
    (resolves : resolve system (join mount) resolveLastLink path = some (internal, resolved)) :
    (internal, resolved) = answer mount (lexical path) ∨ internal = false ∧ Unreached system resolved := by
  have countable : Countable system path := ⟨small, fun link => absurd link (linkless _)⟩
  have ends := ends_resolve named mounted resolveLastLink plain countable
  rw [resolves] at ends
  obtain unreached | ⟨place, rooted, way, concluded⟩ := ends.of_some
  · exact .inr unreached
  · obtain ⟨rfl, rfl⟩ := follow_linkless linkless way
    rw [conclusion_eq deeper] at concluded
    exact .inl (Option.some.inj concluded).symm

end linkless

/-! One call. -/

/-- A call, with the external file system and the open files that it finds. -/
structure Step where
  system : System
  ofm : OpenFileMap OpenFile
  call : Call

/-- An internal path that the client has found without links. -/
def Found (mount : List Str) (path : Str) : Prop :=
  ∃ system resolveLastLink text, Linkless system ∧ Named system ∧ (names text).length < 2 ^ 32 ∧
    resolve system (join mount) resolveLastLink text = some (true, path)

/-- There are no links, and there were none where the open directories have been opened. -/
structure Step.Plain (mount : List Str) (step : Step) : Prop where
  linkless : Linkless step.system
  named : Named step.system
  opened : ∀ {fd file}, step.ofm.get fd = some file → file.type = .directory → Found mount file.path

/-- The counters of the resolver are wide enough for the path of the call. -/
def Step.Small (process : CwdState) (step : Step) : Prop :=
  match step.call with
  | .chdir path => (names (fullPath process.context path)).length < 2 ^ 32
  | .fchdir .. => True

/-- The directory that the call asks for. -/
def Step.destination (process : CwdState) (step : Step) : List Str :=
  match step.call with
  | .chdir path => lexical (fullPath process.context path)
  | .fchdir fd directory =>
    match step.ofm.get fd with
    | some file => lexical (process.context.mountdir ++ file.path)
    | none => directory.getD []

/-- A path below `/sys/` or `/proc/`, which the client does not resolve, is a normal form. -/
def Step.Normal (process : CwdState) (step : Step) : Prop :=
  match step.call with
  | .chdir path =>
    excluded (fullPath process.context path) = true →
      fullPath process.context path = join (lexical (fullPath process.context path))
  | .fchdir .. => True

/-- The state that the call finds. -/
def Step.before (process : CwdState) (step : Step) : CwdState := { process with context := { process.context with ofm := step.ofm } }

/-- The call has returned 0. -/
def Step.Succeeds {deployment : Deployment} (client : Client deployment) (process : CwdState) (step : Step) (after : CwdState) : Prop :=
  ∃ errno pools cluster cluster', (Cluster.server deployment pools).exec
    (perform client step.system errno (step.before process) step.call) cluster = (some (.ok after), cluster')

/-- Relative paths are put behind the working directory. -/
def Usable (process : CwdState) : Prop :=
  ∀ rawPath, isAbsolute rawPath = false →
    process.context.prependPath rawPath = some (process.context.cwd ++ '/' :: rawPath) ∧
    isAbsolute (process.context.cwd ++ '/' :: rawPath) = true ∧
    ∀ system resolveLastLink, process.context.relativizePath system rawPath resolveLastLink =
      process.context.resolved system resolveLastLink (process.context.cwd ++ '/' :: rawPath)

theorem usable_iff (process : CwdState) :
    Usable process ↔ isAbsolute (process.context.cwd ++ ['/']) = true ∧
      (process.context.ndebug = true ∨ hasTrailingSlash process.context.cwd = false) := by
  have absolute : ∀ rawPath, isAbsolute (process.context.cwd ++ '/' :: rawPath) = isAbsolute (process.context.cwd ++ ['/']) := by
    intro rawPath
    cases process.context.cwd <;> rfl
  constructor
  · intro usable
    obtain ⟨prepended, whole, _⟩ := usable [] rfl
    refine ⟨whole, ?_⟩
    by_contra refused
    simp [PathContext.prependPath, not_or.mp refused] at prepended
  · rintro ⟨whole, allowed⟩ rawPath relative
    have prepended : process.context.prependPath rawPath = some (process.context.cwd ++ '/' :: rawPath) := by
      rw [PathContext.prependPath, if_neg (by rcases allowed with release | unended <;> simp [*])]
    refine ⟨prepended, (absolute rawPath).trans whole, fun system resolveLastLink => ?_⟩
    rw [PathContext.relativizePath, if_neg (by simp [relative]), prepended]
    rfl

section step
variable {deployment : Deployment} {client : Client deployment} {process after : CwdState}

theorem relativizePath_eq_some {context : PathContext} {system : System} {rawPath : Str} {resolveLastLink : Bool}
    {status : RelativizeStatus} (answer : context.relativizePath system rawPath resolveLastLink = some status) :
    ∃ internal resolved, resolve system context.mountdir resolveLastLink (fullPath context rawPath) = some (internal, resolved) ∧
      status = if internal then .internal resolved else .external resolved := by
  obtain ⟨⟨internal, resolved⟩, resolves, shape⟩ := Option.map_eq_some_iff.mp (ExternalCalls.resolved_fullPath answer)
  exact ⟨internal, resolved, resolves, shape.symm⟩

theorem context_of_setCwd {system : System} {path : Str} {internal : Bool} (set : setCwd system process path internal = some after) :
    after.context = { process.context with cwd := path } ∧
      (internal = false → ¬ Unreached system path) := by
  cases internal with
  | true =>
    obtain ⟨place, _, whole⟩ := Option.bind_eq_some_iff.mp set
    cases whole
    exact ⟨rfl, by simp⟩
  | false =>
    obtain ⟨place, reached, whole⟩ := Option.bind_eq_some_iff.mp set
    cases whole
    refine ⟨rfl, fun _ unreached => ?_⟩
    rw [setSysCwd] at reached
    split at reached
    next found walked => exact unreached found walked
    next => cases reached

theorem setCwd_of_changed {errno : Int} {result : Option CwdState} (ok : changed errno result = .ok after) : result = some after := by
  cases result with
  | none => cases ok
  | some process =>
    cases ok
    rfl

theorem chdir_cases {system : System} {errno : Int} {path : Str} {pools : Nat → IoPool} {cluster cluster' : Cluster}
    (ran : (Cluster.server deployment pools).exec (hookChdir client system errno process path) cluster = (some (.ok after), cluster')) :
    ∃ internal resolved,
      resolve system process.context.mountdir true (fullPath process.context path) = some (internal, resolved) ∧
      setCwd system process (if internal then mountedPath process.context.mountdir resolved else resolved) internal = some after := by
  rw [hookChdir] at ran
  split at ran
  next relPath status =>
    obtain ⟨internal, resolved, resolves, shape⟩ := relativizePath_eq_some status
    cases internal with
    | false => cases shape
    | true =>
      cases shape
      obtain ⟨answer, between, _, ran⟩ := Server.exec_bind_eq_some _ ran
      cases answer with
      | error error => cases ran
      | ok md =>
        simp only at ran
        split at ran
        next => cases ran
        next =>
          obtain ⟨ok, _⟩ := Prod.mk.inj ran
          exact ⟨true, relPath, resolves, setCwd_of_changed (Option.some.inj ok)⟩
  next resolved status =>
    obtain ⟨internal, text, resolves, shape⟩ := relativizePath_eq_some status
    cases internal with
    | true => cases shape
    | false =>
      cases shape
      obtain ⟨ok, _⟩ := Prod.mk.inj ran
      exact ⟨false, resolved, resolves, setCwd_of_changed (Option.some.inj ok)⟩
  next => cases ran

variable {mount : List Str} (mounted : ∀ name ∈ mount, IsName name) (deeper : mount ≠ [])
include mounted deeper

theorem Found.below {path : Str} (found : Found mount path) :
    ∃ below, (∀ name ∈ below, IsName name) ∧ path = join below := by
  obtain ⟨system, resolveLastLink, text, linkless, named, small, resolves⟩ := found
  obtain answered | ⟨external, _⟩ := resolve_linkless linkless named mounted deeper (excluded_of_internal resolves) small resolves
  · rw [answer] at answered
    split at answered <;> cases answered
    exact ⟨_, fun name member => valid_lexical text name (List.mem_of_mem_drop member), rfl⟩
  · cases external

/-- The text that a successful call has stored. -/
structure Stored (process : CwdState) (step : Step) (after : CwdState) : Prop where
  context : after.context = { process.context with cwd := after.context.cwd, ofm := step.ofm }
  valid : ∀ name ∈ step.destination process, IsName name
  normal : after.context.cwd = join (step.destination process) ↔ step.Normal process

omit mounted deeper in
theorem Stored.of_cwd {step : Step} {cwd : Str} (context : after.context = { (step.before process).context with cwd := cwd })
    (valid : ∀ name ∈ step.destination process, IsName name) (normal : cwd = join (step.destination process) ↔ step.Normal process) :
    Stored process step after := by
  have same : after.context.cwd = cwd := by rw [context]
  refine ⟨?_, valid, same ▸ normal⟩
  rw [same, context]
  rfl

variable {step : Step} (plain : step.Plain mount) (mountdir : process.context.mountdir = join mount)
include plain mountdir

theorem stored_chdir {path : Str} (called : step.call = .chdir path) (small : step.Small process)
    (succeeds : step.Succeeds client process after) :
    Stored process step after := by
  obtain ⟨errno, pools, cluster, cluster', ran⟩ := succeeds
  rw [called] at ran
  obtain ⟨internal, resolved, resolves, set⟩ := chdir_cases ran
  have full : fullPath (step.before process).context path = fullPath process.context path := rfl
  have mounts : (step.before process).context.mountdir = join mount := mountdir
  rw [mounts] at set
  rw [full, mounts] at resolves
  obtain ⟨context, reached⟩ := context_of_setCwd set
  have destination : step.destination process = lexical (fullPath process.context path) := by rw [Step.destination, called]
  rw [Step.Small, called] at small
  have normal : step.Normal process ↔ (excluded (fullPath process.context path) = true →
      fullPath process.context path = join (lexical (fullPath process.context path))) := by rw [Step.Normal, called]
  refine .of_cwd context (destination ▸ valid_lexical _) ?_
  rw [destination, normal]
  cases spared : excluded (fullPath process.context path) with
  | true =>
    rw [resolve, if_pos spared] at resolves
    cases resolves
    simp
  | false =>
    suffices (if internal then mountedPath (join mount) resolved else resolved) = join (lexical (fullPath process.context path)) by
      simpa using this
    obtain answered | ⟨external, unreached⟩ := resolve_linkless plain.linkless plain.named mounted deeper spared small resolves
    · rw [answer] at answered
      split at answered
      next inside =>
        cases answered
        obtain ⟨below, inside⟩ := inside
        have others : ∀ name ∈ below, IsName name := fun name member => valid_lexical _ name (inside ▸ List.mem_append_right _ member)
        rw [if_pos rfl, ← inside, List.drop_left, mountedPath_join mounted deeper others]
      next =>
        cases answered
        rfl
    · subst external
      exact absurd unreached (reached rfl)

theorem stored_fchdir {fd : Int} {directory : Option (List Str)} (called : step.call = .fchdir fd directory)
    (succeeds : step.Succeeds client process after) : Stored process step after := by
  obtain ⟨errno, pools, cluster, cluster', ran⟩ := succeeds
  have normal : step.Normal process := by rw [Step.Normal, called]; trivial
  have files : (step.before process).context.ofm = step.ofm := rfl
  have mounts : (step.before process).context.mountdir = join mount := mountdir
  rw [called, perform] at ran
  cases kept : step.ofm.get fd with
  | some file =>
    simp only [hookFchdir, files, kept, mounts] at ran
    split at ran
    next => cases ran
    next isDirectory =>
      obtain ⟨ok, _⟩ := Prod.mk.inj ran
      obtain ⟨context, _⟩ := context_of_setCwd (setCwd_of_changed (Option.some.inj ok))
      obtain ⟨below, valid, same⟩ := Found.below mounted deeper (plain.opened kept (not_not.mp isDirectory))
      have destination : step.destination process = mount ++ below := by
        simp only [Step.destination, called, kept, mountdir, same, lexical_mounted mounted deeper valid]
      have both : ∀ name ∈ mount ++ below, IsName name := fun name member => (List.mem_append.mp member).elim (mounted name) (valid name)
      refine .of_cwd context (destination ▸ both) ⟨fun _ => normal, fun _ => ?_⟩
      rw [same, mountedPath_join mounted deeper valid, destination]
  | none =>
    simp only [hookFchdir, files, kept] at ran
    split at ran
    next place =>
      split at ran
      next present =>
        obtain ⟨ok, _⟩ := Prod.mk.inj ran
        cases ok
        have destination : step.destination process = place := by simp only [Step.destination, called, kept, Option.getD_some]
        exact .of_cwd rfl (destination ▸ Named.valid plain.named present) ⟨fun _ => normal, fun _ => congrArg join destination.symm⟩
      next => cases ran
    next => cases ran

theorem stored_of_succeeds (small : step.Small process) (succeeds : step.Succeeds client process after) : Stored process step after := by
  cases called : step.call with
  | chdir path => exact stored_chdir mounted deeper plain mountdir called small succeeds
  | fchdir fd directory => exact stored_fchdir mounted deeper plain mountdir called succeeds

end step

/-- Behind every directory but the root, relative paths keep the assertion. -/
theorem Stored.usable_iff {process after : CwdState} {step : Step} (stored : Stored process step after)
    (normal : after.context.cwd = join (step.destination process)) :
    Usable after ↔ process.context.ndebug = true ∨ step.destination process ≠ [] := by
  have canonical : Canonical (join (step.destination process)) := ⟨_, stored.valid, rfl⟩
  have absolute : isAbsolute (join (step.destination process) ++ ['/']) = true := by
    cases step.destination process <;> simp [join, isAbsolute]
  have ended : hasTrailingSlash (join (step.destination process)) = false ↔ step.destination process ≠ [] := by
    constructor
    · intro unended root
      simp [root, join, hasTrailingSlash] at unended
    · exact fun other => canonical.hasTrailingSlash.resolve_left (mt (join_eq_root stored.valid).mp other)
  have build : after.context.ndebug = process.context.ndebug := by rw [stored.context]
  rw [WorkingDirectory.usable_iff, normal, build, ended]
  simp [absolute]

/-! Whole runs. -/

section runs
variable {deployment : Deployment} (client : Client deployment)

/-- After every successful call the normal form is stored and relative paths can be used. -/
def Stays : CwdState → List Step → Prop
  | _, [] => True
  | process, step :: steps => ∀ after, step.Succeeds client process after →
    after.context.cwd = join (step.destination process) ∧ Usable after ∧ Stays after steps

/-- The counters of the resolver are wide enough for the path of every call. -/
def Small : CwdState → List Step → Prop
  | _, [] => True
  | process, step :: steps => step.Small process ∧ ∀ after, step.Succeeds client process after → Small after steps

/-- Successful calls for paths below `/sys/` and `/proc/` are made with normal forms, and in a
build with assertions none leads to the root. -/
def Allowed : CwdState → List Step → Prop
  | _, [] => True
  | process, step :: steps => ∀ after, step.Succeeds client process after →
    step.Normal process ∧ (process.context.ndebug = true ∨ step.destination process ≠ []) ∧ Allowed after steps

theorem stays_iff {mount : List Str} (mounted : ∀ name ∈ mount, IsName name) (deeper : mount ≠ []) {process : CwdState}
    (mountdir : process.context.mountdir = join mount) {steps : List Step} (plain : ∀ step ∈ steps, step.Plain mount)
    (small : Small client process steps) :
    Stays client process steps ↔ Allowed client process steps := by
  induction steps generalizing process with
  | nil => exact Iff.rfl
  | cons step steps ih =>
    obtain ⟨here, others⟩ := List.forall_mem_cons.mp plain
    refine forall_congr' fun after => imp_congr_right fun succeeds => ?_
    have stored := stored_of_succeeds mounted deeper here mountdir small.1 succeeds
    have later : after.context.mountdir = join mount := by rw [stored.context]; exact mountdir
    rw [ih later others (small.2 after succeeds), ← stored.normal]
    exact and_congr_right fun normal => and_congr_left fun _ => stored.usable_iff normal

end runs

/-- In a run of successful calls the working directory stays usable exactly when the start is
usable and every call is allowed. -/
theorem working_directory_iff {deployment : Deployment} (client : Client deployment) {mount : List Str}
    (mounted : ∀ name ∈ mount, IsName name) (deeper : mount ≠ []) {context : PathContext} (mountdir : context.mountdir = join mount)
    (env : Option Str) (sysCwd : List Str) {steps : List Step} (plain : ∀ step ∈ steps, step.Plain mount)
    (small : Small client (initCwd context env sysCwd) steps) :
    Usable (initCwd context env sysCwd) ∧ Stays client (initCwd context env sysCwd) steps ↔
      (isAbsolute (env.getD (join sysCwd) ++ ['/']) = true ∧
        (context.ndebug = true ∨ hasTrailingSlash (env.getD (join sysCwd)) = false)) ∧
      Allowed client (initCwd context env sysCwd) steps :=
  and_congr (usable_iff _) (@stays_iff deployment client mount mounted deeper (initCwd context env sysCwd) mountdir steps plain small)

/-- `/m` is the mount directory, with `/proc` beside it. -/
def mountAndProc : NameTree Str where
  lookup place := if place = [] ∨ place = [['m']] ∨ place = ["proc".toList] then some .directory else none
  root := rfl
  parent {place name node} present := by
    cases place with
    | nil => rfl
    | cons first place => simp at present

/-- A call without open files. -/
def chdirTo (path : String) : Step := ⟨⟨mountAndProc, 40⟩, .empty, .chdir path.toList⟩

theorem plain_chdirTo (path : String) : (chdirTo path).Plain [['m']] where
  linkless := by
    rintro place ⟨absolute, target, link⟩
    have looked : (if place = [] ∨ place = [['m']] ∨ place = ["proc".toList] then some .directory else none) =
      some (Node.link absolute target) := link
    split at looked <;> cases looked
  named := by
    intro place name node present
    by_cases known : name = ['m'] ∨ name = "proc".toList
    · rcases known with rfl | rfl <;> decide
    · rw [not_or] at known
      have looked : (if place ++ [name] = [] ∨ place ++ [name] = [['m']] ∨
          place ++ [name] = ["proc".toList] then some .directory else none) =
        some node := present
      rw [if_neg] at looked
      · cases looked
      · cases place <;> simp [-String.reduceToList, known]
  opened := by
    intro fd file kept
    cases kept

/-- A debug build that starts in the mount directory. -/
def started : CwdState := initCwd ⟨false, "/m".toList, [], .empty⟩ none [['m']]

theorem working_directory_iff_moves : started.context.ndebug = false ∧ Usable started ∧
    Stays (.first (.pair List.length)) started [chdirTo "../proc", chdirTo "/m/."] := by
  have full : ∀ between : CwdState, fullPath between.context "/m/.".toList = "/m/.".toList := fun _ => if_pos (by decide)
  have small : Small (.first (.pair List.length)) started [chdirTo "../proc", chdirTo "/m/."] := by
    have first : (names (fullPath started.context "../proc".toList)).length < 2 ^ 32 := by decide
    refine ⟨first, fun between _ => ⟨?_, fun _ _ => trivial⟩⟩
    show (names (fullPath between.context "/m/.".toList)).length < 2 ^ 32
    rw [full]
    decide
  refine ⟨rfl, (working_directory_iff (.first (.pair List.length)) (by decide : ∀ name ∈ [['m']], IsName name) (by decide) rfl none [['m']]
    (List.forall_mem_cons.mpr ⟨plain_chdirTo _, List.forall_mem_singleton.mpr (plain_chdirTo _)⟩) small).mpr ⟨by decide, ?_⟩⟩
  refine fun between _ => ⟨fun spared => absurd spared (by decide), .inr (by decide), fun _ _ => ?_⟩
  have destination : (chdirTo "/m/.").destination between = [['m']] := (congrArg lexical (full between)).trans (by decide)
  exact ⟨fun spared => absurd (full between ▸ spared) (by decide), .inr (by simp [destination]), trivial⟩

/-- Relative paths break the assertion in the root, and `/proc/..` is stored as it is. -/
theorem root_breaks_assertion :
    (∃ after, (chdirTo "/").Succeeds (.first (.pair List.length)) started after ∧ after.context.prependPath "x".toList = none) ∧
    ∃ after, (chdirTo "/proc/..").Succeeds (.first (.pair List.length)) started after ∧ after.context.cwd = "/proc/..".toList ∧
      join ((chdirTo "/proc/..").destination started) = "/".toList := by
  have idle : IoPool := ⟨id, fun _ => List.Perm.refl _, fun _ => .stored 0, fun _ _ => .ok 1⟩
  exact ⟨⟨_, ⟨0, fun _ => idle, .fresh, _, rfl⟩, by decide⟩, _, ⟨0, fun _ => idle, .fresh, _, rfl⟩, by decide, by decide⟩

end GekkoFwd.Proofs.WorkingDirectory
