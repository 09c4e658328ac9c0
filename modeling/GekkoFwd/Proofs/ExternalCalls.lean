import GekkoFwd.Proofs.PathTransparency

/-! The hooks on external paths: when the kernel does with the path that it is given what it
would have done with the path of the application. -/

namespace GekkoFwd.Proofs.ExternalCalls
open Lib.NamingTree GekkoFwd.Path PathResolver PathText PathResolution ResolverWalk PathTransparency

/-- A process in an external directory. -/
structure Working (system : System) (mount : List Str) (context : PathContext) (cwd : List Str) : Prop where
  external : External system mount
  mountdir : context.mountdir = join mount
  workdir : context.cwd = join cwd
  directory : system.tree.lookup cwd = some .directory
  outside : ¬ mount <+: cwd

/-- The directory that a walk of the path starts in. -/
def origin (start : List Str) (rawPath : Str) : List Str := if isAbsolute rawPath then [] else start

def fullPath (context : PathContext) (rawPath : Str) : Str :=
  if isAbsolute rawPath then rawPath else context.cwd ++ '/' :: rawPath

/-- The hook does not resolve the path: it is relative to a directory of another file
system, or it is below `/sys` or `/proc`. -/
def LeftAlone (context : PathContext) (call : PathCall) (dirfd : Int) (rawPath : Str) : Prop :=
  (call.usesCwd = false ∧ isAbsolute rawPath = false ∧ dirfd ≠ atFdcwd) ∨
    (rawPath ≠ [] ∧ excluded (fullPath context rawPath) = true)

/-- The kernel does not give up on the links of the path, and the path is straight. -/
structure Transparent (system : System) (mount : List Str) (call : PathCall) (start : List Str) (rawPath : Str) : Prop where
  nonempty : rawPath ≠ []
  within : outcome system call.rule start rawPath ≠ .tooManyLinks
  straight : Straight system mount call.rule call.resolveLastLink (origin start rawPath) (parts rawPath)

section calls
variable {system : System} {mount cwd start : List Str} {context : PathContext} {rule : LastLink} {resolveLastLink : Bool}

theorem isAbsolute_append {path : Str} (absolute : isAbsolute path = true) (rest : Str) : isAbsolute (path ++ rest) = true := by
  cases path with
  | nil => cases absolute
  | cons c behind => exact absolute

theorem Working.isAbsolute_fullPath (working : Working system mount context cwd) (rawPath : Str) :
    isAbsolute (fullPath context rawPath) = true := by
  rw [fullPath]
  split
  · assumption
  · rw [working.workdir]
    exact isAbsolute_append (isAbsolute_join cwd) _

theorem Working.parts_relative (working : Working system mount context cwd) {rawPath : Str} (relative : isAbsolute rawPath = false) :
    parts (fullPath context rawPath) = route cwd ++ parts ('/' :: rawPath) := by
  have valid := working.external.valid working.directory
  rw [fullPath, if_neg (by simp [relative]), working.workdir]
  cases cwd with
  | nil => exact parts_slash (by simp)
  | cons name cwd => exact parts_text valid (separated_slash rawPath)

/-- The way of the resolver to a directory outside of the mount directory. -/
theorem follow_route {place : List Str} {rooted : Bool} (names : List Str)
    (directory : system.tree.lookup (place ++ names) = some .directory) (outside : ¬ mount <+: place ++ names)
    (rest : List (Component Str)) :
    follow system mount resolveLastLink place rooted (route names ++ rest) =
      follow system mount resolveLastLink (place ++ names) rooted rest := by
  induction names generalizing place with
  | nil => simp [route]
  | cons name names ih =>
    have here : ¬ mount <+: place := fun inside => outside (inside.trans (List.prefix_append place _))
    have grouped : place ++ name :: names = place ++ [name] ++ names := by simp
    rw [grouped] at directory outside ⊢
    have first : system.tree.lookup (place ++ [name]) = some .directory := by
      by_cases last : names = []
      · simpa [last] using directory
      · exact NameTree.lookup_above directory last
    exact (follow_directory here first).trans (ih directory outside)

section placed
variable (working : Working system mount context cwd) {rawPath : Str} (placed : isAbsolute rawPath = true ∨ start = cwd)
include working placed

theorem Working.lookup_origin : system.tree.lookup (origin start rawPath) = some .directory := by
  rw [origin]
  split
  next => exact system.tree.root
  next relative =>
    obtain rfl : start = cwd := placed.resolve_left relative
    exact working.directory

variable (nonempty : rawPath ≠ [])
include nonempty

/-- The way of the whole path is that of the application's path from where it starts. -/
theorem Working.follow_fullPath :
    follow system mount resolveLastLink [] false (parts (fullPath context rawPath)) =
      follow system mount resolveLastLink (origin start rawPath) false (parts rawPath) := by
  cases absolute : isAbsolute rawPath with
  | true => rw [fullPath, origin, if_pos absolute, if_pos absolute]
  | false =>
    obtain rfl : start = cwd := by simpa [absolute] using placed
    have walked : follow system mount resolveLastLink [] false (route start ++ parts ('/' :: rawPath)) =
        follow system mount resolveLastLink start false (parts ('/' :: rawPath)) :=
      follow_route start working.directory working.outside _
    rw [working.parts_relative absolute, walked, origin, if_neg (by simp [absolute]), parts_slash nonempty]

/-- The kernel walks the whole path as it walks the application's path from where it starts. -/
theorem Working.outcome_fullPath {rule : LastLink} :
    outcome system rule start (fullPath context rawPath) = outcome system rule start rawPath := by
  cases absolute : isAbsolute rawPath with
  | true => rw [fullPath, if_pos absolute]
  | false =>
    obtain rfl : start = cwd := by simpa [absolute] using placed
    have named : ¬ Ended (parts rawPath) := not_ended_parts nonempty absolute
    rw [outcome_absolute start (working.isAbsolute_fullPath rawPath), working.parts_relative absolute, parts_slash nonempty,
      NameTree.walk_from_root (LastLink.not_takesLast_of_not_ended named) working.directory, outcome, if_neg nonempty,
      if_neg (by simp [absolute])]

end placed

theorem status_ne_fdUnknown {path : Str} (answer : context.resolved system resolveLastLink path = some .fdUnknown) : False := by
  obtain ⟨⟨internal, text⟩, _, status⟩ := Option.map_eq_some_iff.mp answer
  cases internal <;> cases status

theorem resolve_of_external {path resolved : Str}
    (answer : context.resolved system resolveLastLink path = some (.external resolved)) :
    resolve system context.mountdir resolveLastLink path = some (false, resolved) := by
  obtain ⟨⟨internal, text⟩, found, status⟩ := Option.map_eq_some_iff.mp answer
  cases internal <;> cases status
  exact found

/-- The whole path is what the client resolves. -/
theorem resolved_fullPath {rawPath : Str} {status : RelativizeStatus}
    (answer : context.relativizePath system rawPath resolveLastLink = some status) :
    context.resolved system resolveLastLink (fullPath context rawPath) = some status := by
  rw [PathContext.relativizePath] at answer
  rw [fullPath]
  split at answer
  next absolute => rwa [if_pos absolute]
  next relative =>
    obtain ⟨path, prepended, answer⟩ := Option.bind_eq_some_iff.mp answer
    rw [PathContext.prependPath] at prepended
    split at prepended <;> cases prepended
    rwa [if_neg relative]

theorem relativizeFdPath_here {dirfd : Int} {rawPath : Str} (here : isAbsolute rawPath = true ∨ dirfd = atFdcwd) :
    context.relativizeFdPath system dirfd rawPath resolveLastLink = context.relativizePath system rawPath resolveLastLink := by
  rw [PathContext.relativizeFdPath, PathContext.relativizePath]
  by_cases absolute : isAbsolute rawPath = true
  · rw [if_pos absolute, if_pos absolute]
    rfl
  · rw [if_neg absolute, if_neg absolute, if_pos (here.resolve_left absolute)]

/-- The hook resolves the whole path, unless it passes the path on. -/
theorem relativized {call : PathCall} {dirfd : Int} {rawPath : Str} {status : RelativizeStatus}
    (foreign : isAbsolute rawPath = true ∨ call.usesCwd = true ∨ dirfd = atFdcwd ∨ context.ofm.get dirfd = none)
    (answer : call.status system context dirfd rawPath = some status) :
    (status = .fdUnknown ∧ call.usesCwd = false ∧ isAbsolute rawPath = false ∧ dirfd ≠ atFdcwd) ∨
      (¬ (call.usesCwd = false ∧ isAbsolute rawPath = false ∧ dirfd ≠ atFdcwd) ∧
        context.resolved system call.resolveLastLink (fullPath context rawPath) = some status) := by
  rw [PathCall.status] at answer
  split at answer
  next uses => exact .inr ⟨by simp [uses], resolved_fullPath answer⟩
  next uses =>
    by_cases here : isAbsolute rawPath = true ∨ dirfd = atFdcwd
    · rw [relativizeFdPath_here here] at answer
      refine .inr ⟨fun passed => ?_, resolved_fullPath answer⟩
      rcases here with absolute | same
      · simp [absolute] at passed
      · exact passed.2.2 same
    · obtain ⟨relative, elsewhere⟩ := not_or.mp here
      have unknown : context.ofm.get dirfd = none := by simpa [relative, uses, elsewhere] using foreign
      rw [PathContext.relativizeFdPath, if_neg relative, if_neg elsewhere, unknown] at answer
      cases answer
      exact .inl ⟨rfl, by simpa using uses, by simpa using relative, elsewhere⟩

theorem handed_cases (working : Working system mount context cwd) {call : PathCall} {dirfd : Int} {rawPath handed : Str}
    (foreign : isAbsolute rawPath = true ∨ call.usesCwd = true ∨ dirfd = atFdcwd ∨ context.ofm.get dirfd = none)
    (answer : call.handed system context dirfd rawPath = some (some handed)) :
    (handed = rawPath ∧ call.usesCwd = false ∧ isAbsolute rawPath = false ∧ dirfd ≠ atFdcwd) ∨
      (¬ (call.usesCwd = false ∧ isAbsolute rawPath = false ∧ dirfd ≠ atFdcwd) ∧
        resolve system (join mount) call.resolveLastLink (fullPath context rawPath) = some (false, handed)) := by
  obtain ⟨status, found, passed⟩ := Option.map_eq_some_iff.mp answer
  rw [← working.mountdir]
  rcases relativized foreign found with ⟨rfl, passes⟩ | ⟨resolves, found⟩
  · cases passed
    exact .inl ⟨rfl, passes⟩
  · cases status with
    | internal _ => cases passed
    | fdNotADir => cases passed
    | fdUnknown => exact (status_ne_fdUnknown found).elim
    | external resolved =>
      cases passed
      exact .inr ⟨resolves, resolve_of_external found⟩

/-- The condition, when the path is resolved. -/
theorem Working.agrees_resolved (working : Working system mount context cwd) (call : PathCall) {rawPath handed : Str}
    (placed : isAbsolute rawPath = true ∨ start = cwd) (nonempty : rawPath ≠ []) (countable : Countable system (fullPath context rawPath))
    (plain : excluded (fullPath context rawPath) = false)
    (answer : resolve system (join mount) call.resolveLastLink (fullPath context rawPath) = some (false, handed))
    (within : outcome system call.rule start rawPath ≠ .tooManyLinks) :
    Agrees (Straight system mount call.rule call.resolveLastLink (origin start rawPath) (parts rawPath))
      (some (outcome system call.rule start handed)) (outcome system call.rule start rawPath) := by
  obtain ⟨outside, handed⟩ := handedWalk_of_resolve working.external countable plain answer call.rule start
  rw [working.follow_fullPath placed nonempty] at outside handed
  have walked : outcome system call.rule start rawPath =
      system.tree.walk call.rule system.links (origin start rawPath) (parts rawPath) := by
    rw [outcome, if_neg nonempty]
    rfl
  rw [walked] at within ⊢
  rw [← handed]
  exact agrees_follow working.external (Nat.le_refl _) (working.lookup_origin placed) within outside

end calls

/-! A tree with a link to a file, in which `lstat` and `rename` miss the link. -/

/-- `/m` is the mount directory, `/f` a file and `/l` a link to it. -/
def linked : NameTree Str where
  lookup place :=
    if place = [] ∨ place = [['m']] then some .directory
    else if place = [['f']] then some .file
    else if place = [['l']] then some (.link false [.down ['f']])
    else none
  root := rfl
  parent {place name node} present := by
    cases place with
    | nil => rfl
    | cons first place => simp at present

def linkedSystem : System := ⟨linked, 40⟩

/-- A process of a release build that works in the root directory. -/
def inRoot : PathContext := ⟨true, "/m".toList, "/".toList, .empty⟩

theorem lookup_linked {place : List Str} {node : Node Str} (present : linked.lookup place = some node) :
    place = [] ∨ place = [['m']] ∨ place = [['f']] ∨ place = [['l']] := by
  by_contra other
  simp only [not_or] at other
  simp [linked, other] at present

theorem landing_linked {place target : List Str} (link : linkedSystem.tree.IsLink place)
    (landed : linkedSystem.tree.landing linkedSystem.links place = some target) : target = [['f']] := by
  obtain ⟨absolute, parts, link⟩ := link
  have leads : linkedSystem.tree.landing linkedSystem.links [['l']] = some [['f']] := by decide
  rcases lookup_linked link with rfl | rfl | rfl | rfl
  · cases link
  · cases link
  · cases link
  · exact (Option.some.inj (leads.symm.trans landed)).symm

theorem external_linked : External linkedSystem [['m']] where
  named {place name node} present := by
    have last : (place ++ [name]).getLast? = some name := List.getLast?_concat
    rcases lookup_linked present with same | same | same | same <;> rw [same] at last <;> cases last <;> decide
  directory := rfl
  vacant name below := by
    cases present : linkedSystem.tree.lookup ([['m']] ++ name :: below) with
    | none => rfl
    | some node => rcases lookup_linked present with same | same | same | same <;> simp at same
  outside link landed := by
    rw [landing_linked link landed]
    decide

theorem working_linked : Working linkedSystem [['m']] inRoot [] :=
  ⟨external_linked, by decide, by decide, rfl, by decide⟩

theorem countable_linked {path : Str} (short : (names path).length + 1 < 2 ^ 32) : Countable linkedSystem path := by
  refine ⟨Nat.lt_of_succ_lt short, fun link landed => ?_⟩
  rw [landing_linked link landed, List.length_singleton, Nat.add_comm]
  exact short

end GekkoFwd.Proofs.ExternalCalls
