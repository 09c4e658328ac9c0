import GekkoFwd.Proofs.PathResolution

/-! The resolver in a tree with links: the place that it stands at with its text and its
counters, and where it ends. -/

namespace GekkoFwd.Proofs.ResolverWalk
open Lib.NamingTree GekkoFwd.Path PathResolver PathText ComponentMatch PathResolution

section walks
variable {system : System} {mount place : List Str} {rule : LastLink} {resolveLastLink : Bool} {name : Str}

/-- The names in a tree are names. -/
def Named (system : System) : Prop :=
  ∀ {place : List Str} {name : Str} {node : Node Str}, system.tree.lookup (place ++ [name]) = some node → IsName name

theorem Named.valid (named : Named system) {node : Node Str} (present : system.tree.lookup place = some node) :
    ∀ name ∈ place, IsName name := by
  induction place using List.reverseRecOn generalizing node with
  | nil => simp
  | append_singleton init last ih =>
    exact isName_concat (ih (system.tree.parent present)) (named present)

theorem walk_resolved {lead rest : Str} (start : lead = [] ∨ lead = ['/']) (valid : ∀ name ∈ place, IsName name)
    (separated : Separated rest) :
    system.tree.walk rule system.links [] (parts (lead ++ (text place ++ rest))) =
      system.tree.walk rule system.links [] (route place ++ parts rest) := by
  rw [← parts_text valid separated]
  rcases start with rfl | rfl
  · rfl
  · by_cases empty : text place ++ rest = []
    · rw [empty]
      exact NameTree.walk_slash
    · exact congrArg _ (parts_slash empty)

theorem route_concat (place : List Str) (name : Str) (rest : List (Component Str)) :
    route (place ++ [name]) ++ rest = route place ++ .down name :: rest := by
  simp [route]

theorem walk_pushed {lead rest : Str} (start : lead = [] ∨ lead = ['/']) (valid : ∀ part ∈ place, IsName part)
    (isName : IsName name) (separated : Separated rest) :
    system.tree.walk rule system.links [] (parts (lead ++ text place ++ '/' :: name ++ rest)) =
      system.tree.walk rule system.links [] (route place ++ .down name :: parts rest) := by
  have shape : lead ++ text place ++ '/' :: name ++ rest = lead ++ (text (place ++ [name]) ++ rest) := by
    simp [text_concat]
  rw [shape, walk_resolved start (isName_concat valid isName) separated, route_concat]

theorem walk_last {lead : Str} (start : lead = [] ∨ lead = ['/']) (valid : ∀ part ∈ place, IsName part) (isName : IsName name) :
    system.tree.walk rule system.links [] (parts (lead ++ text place ++ '/' :: name)) =
      system.tree.walk rule system.links [] (route place ++ [.down name]) := by
  have whole : lead ++ text place ++ '/' :: name = lead ++ text place ++ '/' :: name ++ [] := (List.append_nil _).symm
  have ended : parts [] = [] := parts_eq_nil.mpr rfl
  rw [whole, walk_pushed start valid isName separated_nil, ended]

theorem lstat_pushed {lead : Str} (start : lead = [] ∨ lead = ['/']) (valid : ∀ part ∈ place, IsName part)
    (isName : IsName name)
    (present : system.tree.lookup place = some .directory ∨ system.tree.lookup place = some .file) :
    system.lstat (lead ++ text place ++ '/' :: name) = system.tree.lookup (place ++ [name]) := by
  rw [System.lstat, walk_last start valid isName]
  rcases present with directory | file
  · rw [NameTree.walk_from_root LastLink.not_takesLast_keep directory]
    cases found : system.tree.lookup (place ++ [name]) with
    | none => rw [NameTree.walk_missing LastLink.not_takesLast_keep found, if_pos rfl]
    | some node =>
      cases node with
      | directory =>
        rw [NameTree.walk_directory LastLink.not_takesLast_keep found, NameTree.walk_nil]
        exact found
      | file =>
        rw [NameTree.walk_file LastLink.not_takesLast_keep found, if_pos rfl]
        exact found
      | link absolute target =>
        rw [NameTree.walk_kept found]
        exact found
  · rw [NameTree.walk_below_file file (not_ended_down name [])]
    cases found : system.tree.lookup (place ++ [name]) with
    | none => rfl
    | some node => exact absurd (system.tree.parent found) (by simp [file])

theorem realpath_pushed {lead : Str} (start : lead = [] ∨ lead = ['/']) (valid : ∀ part ∈ place, IsName part)
    (isName : IsName name) :
    system.realpath (lead ++ text place ++ '/' :: name) = (system.tree.landing system.links (place ++ [name])).map join := by
  have split : route (place ++ [name]) = route place ++ [.down name] := by simp [route]
  rw [System.realpath, walk_last start valid isName, NameTree.landing, split]
  split <;> simp_all

theorem landing_present {target : List Str} (landed : system.tree.landing system.links place = some target) :
    system.tree.lookup target = some .directory ∨ system.tree.lookup target = some .file :=
  (NameTree.finds_of_walk (NameTree.walk_of_landing landed)).existing system.tree.root rfl

theorem landing_of_finds {links : Nat} {found : Target Str} (directory : system.tree.lookup place = some .directory)
    (finds : NameTree.Finds system.tree links place [.down name] found) (enough : links ≤ system.links) :
    system.tree.landing system.links (place ++ [name]) =
      match found with
      | .existing target => some target
      | .missing .. => none := by
  have split : route (place ++ [name]) = route place ++ [.down name] := by simp [route]
  rw [NameTree.landing, split, NameTree.walk_from_root LastLink.not_takesLast_follow directory, finds.walk enough]
  cases found <;> rfl

end walks

/-- The last place on the way that the resolver has looked at. -/
def anchor (mount place : List Str) : List Str := if mount <+: place then mount else place

theorem anchor_concat (mount place : List Str) (name : Str) :
    anchor mount (place ++ [name]) = if mount <+: place then mount else place ++ [name] := by
  rw [anchor]
  by_cases inside : mount <+: place
  · rw [if_pos inside, if_pos (inside.trans (List.prefix_append place [name]))]
  · rw [if_neg inside]
    split
    next reached => exact (List.prefix_concat_iff.mp reached).resolve_right inside
    next => rfl

theorem anchor_eq_self {mount place : List Str} (within : ¬ (mount <+: place ∧ mount ≠ place)) : anchor mount place = place := by
  rw [anchor]
  split
  next inside => exact not_not.mp fun other => within ⟨inside, other⟩
  next => rfl

/-- The place that the resolver has reached with its text. -/
structure Stands (system : System) (mount : List Str) (cursor : Cursor) (place : List Str) (rooted : Bool) : Prop where
  locals : Locals mount cursor place rooted
  valid : ∀ name ∈ place, IsName name
  anchored : system.tree.lookup (anchor mount place) = some .directory ∨ system.tree.lookup (anchor mount place) = some .file

namespace Stands
variable {system : System} {mount place : List Str} {cursor : Cursor} {rooted : Bool}

theorem root (system : System) (mount : List Str) : Stands system mount ⟨[], 0, 0, 0⟩ [] false := by
  refine ⟨locals_root mount, by simp, .inl ?_⟩
  rw [anchor_eq_self fun deeper => deeper.2 (List.prefix_nil.mp deeper.1)]
  exact system.tree.root

theorem present (stands : Stands system mount cursor place rooted) (outside : ¬ mount <+: place) :
    system.tree.lookup place = some .directory ∨ system.tree.lookup place = some .file := by
  have anchored := stands.anchored
  rwa [anchor, if_neg outside] at anchored

theorem lstat (stands : Stands system mount cursor place rooted) (outside : ¬ mount <+: place) {name : Str} (isName : IsName name) :
    system.lstat (cursor.resolved ++ '/' :: name) = system.tree.lookup (place ++ [name]) := by
  rw [stands.locals.text, lstat_pushed (lead_cases rooted) stands.valid isName (stands.present outside)]

theorem realpath (stands : Stands system mount cursor place rooted) {name : Str} (isName : IsName name) :
    system.realpath (cursor.resolved ++ '/' :: name) = (system.tree.landing system.links (place ++ [name])).map join := by
  rw [stands.locals.text, realpath_pushed (lead_cases rooted) stands.valid isName]

theorem anchored_dropLast (stands : Stands system mount cursor place rooted) :
    system.tree.lookup (anchor mount place.dropLast) = some .directory ∨ system.tree.lookup (anchor mount place.dropLast) = some .file := by
  by_cases inside : mount <+: place.dropLast
  · have anchored := stands.anchored
    rw [anchor, if_pos (inside.trans (List.dropLast_prefix place))] at anchored
    rwa [anchor, if_pos inside]
  · -- The parent of what was looked at is a directory.
    rw [anchor, if_neg inside]
    have above : anchor mount place = place := by
      refine anchor_eq_self fun deeper => inside ?_
      obtain ⟨below, rfl⟩ := deeper.1
      rcases List.eq_nil_or_concat below with rfl | ⟨init, name, rfl⟩
      · simp at deeper
      · rw [List.concat_eq_append, ← List.append_assoc, List.dropLast_concat]
        exact List.prefix_append mount init
    have anchored := stands.anchored
    rw [above] at anchored
    rcases anchored with directory | file
    · exact .inl (NameTree.lookup_dropLast directory)
    · exact .inl (NameTree.lookup_dropLast file)

theorem rollback (stands : Stands system mount cursor place rooted) :
    ∃ next, cursor.rollback = some next ∧ Stands system mount next place.dropLast (rooted && !place.isEmpty) := by
  obtain ⟨next, rolled, locals⟩ := stands.locals.rollback stands.valid
  exact ⟨next, rolled, locals, fun name member => stands.valid name (List.mem_of_mem_dropLast member), stands.anchored_dropLast⟩

theorem push (stands : Stands system mount cursor place rooted) {name : Str} (isName : IsName name) {next : Cursor}
    (locals : Locals mount next (place ++ [name]) rooted)
    (present : ¬ mount <+: place →
      system.tree.lookup (place ++ [name]) = some .directory ∨ system.tree.lookup (place ++ [name]) = some .file) :
    Stands system mount next (place ++ [name]) rooted := by
  refine ⟨locals, isName_concat stands.valid isName, ?_⟩
  rw [anchor_concat]
  split
  next inside =>
    have anchored := stands.anchored
    rwa [anchor, if_pos inside] at anchored
  next outside => exact present outside

end Stands

theorem Named.valid_landing {system : System} (named : Named system) {place target : List Str}
    (landed : system.tree.landing system.links place = some target) : ∀ name ∈ target, IsName name := by
  rcases landing_present landed with directory | file
  · exact named.valid directory
  · exact named.valid file

/-- The counters of the resolver are wide enough for the path, also below where a link leads. -/
structure Countable (system : System) (path : Str) : Prop where
  names : (names path).length < 2 ^ 32
  landing : ∀ {place target : List Str}, system.tree.IsLink place → system.tree.landing system.links place = some target →
    target.length + (PathText.names path).length < 2 ^ 32

theorem Countable.rest {system : System} {path name rest : Str} (countable : Countable system path)
    (next : PathText.names path = name :: PathText.names rest) : Countable system rest := by
  obtain ⟨short, landing⟩ := countable
  rw [next, List.length_cons] at short landing
  exact ⟨Nat.lt_of_succ_lt short, fun link landed => Nat.lt_of_succ_lt (landing link landed)⟩

theorem locals_join {mount target : List Str} (valid : ∀ name ∈ target, IsName name) (small : target.length < 2 ^ 32) :
    Locals mount ⟨join target, .ofNat 32 (matchedCount mount target), .ofNat 32 target.length, findLastSeparator (join target)⟩ target
      target.isEmpty := by
  have most := matchedCount_le mount target
  refine ⟨Nat.mod_eq_of_lt (Nat.lt_of_le_of_lt most small), Nat.mod_eq_of_lt small, ?_, fun _ => rfl⟩
  · cases target with
    | nil => rfl
    | cons name target => rfl

/-- The resolver goes on from where a link leads, unless that lies below the mount directory. -/
theorem stands_landing {system : System} (named : Named system) {mount place target : List Str}
    (landed : system.tree.landing system.links place = some target) (small : target.length < 2 ^ 32)
    (within : ¬ (mount <+: target ∧ mount ≠ target)) :
    ∃ counts : BitVec 32 × BitVec 32, matchComponentsAt (join target) mount = some counts ∧
      Stands system mount ⟨join target, counts.1, counts.2, findLastSeparator (join target)⟩ target target.isEmpty := by
  have valid := named.valid_landing landed
  refine ⟨(.ofNat 32 (matchedCount mount target), .ofNat 32 target.length), ?_, locals_join valid small, valid,
    by rw [anchor_eq_self within]; exact landing_present landed⟩
  rw [matchComponentsAt_join valid mount small, if_neg within, matchedCount]
  split
  next inside =>
    rw [(shared_eq_length_iff target mount).mpr inside, not_not.mp fun other => within ⟨inside, other⟩]
  next => rfl

/-! Where the resolver ends. -/

/-- The resolver leaves a path that leads nowhere, with what is left of it from a place on, an
exception ends it, or it has come to the end of the path. -/
inductive Ending where
  | left (place : List Str) (behind : List (Component Str))
  | thrown
  | arrived (place : List Str) (rooted : Bool)
  deriving DecidableEq

/-- The way of the resolver through the tree, on which it does not look below the mount
directory. -/
def follow (system : System) (mount : List Str) (resolveLastLink : Bool) : List Str → Bool → List (Component Str) → Ending
  | place, rooted, [] => .arrived place rooted
  | place, rooted, .here :: rest => follow system mount resolveLastLink place rooted rest
  | place, rooted, .slash :: rest => follow system mount resolveLastLink place rooted rest
  -- In the root directory the second separator is cut off.
  | place, rooted, .up :: rest => follow system mount resolveLastLink place.dropLast (rooted && !place.isEmpty) rest
  | place, rooted, .down name :: rest =>
    if mount <+: place then follow system mount resolveLastLink (place ++ [name]) rooted rest
    else match system.tree.lookup (place ++ [name]) with
      | none => .left place (.down name :: rest)
      | some .file => if rest = [] then .arrived (place ++ [name]) rooted else .left place (.down name :: rest)
      | some .directory => follow system mount resolveLastLink (place ++ [name]) rooted rest
      | some (.link ..) =>
        if resolveLastLink = false ∧ rest = [] then .arrived (place ++ [name]) rooted
        else match system.tree.landing system.links (place ++ [name]) with
          | none => .left place (.down name :: rest)
          | some target =>
            if mount <+: target ∧ mount ≠ target then .thrown
            else follow system mount resolveLastLink target target.isEmpty rest

/-- The text is an absolute path that the kernel walks as it walks the components from a place. -/
structure Spells (system : System) (resolved : Str) (place : List Str) (behind : List (Component Str)) : Prop where
  absolute : isAbsolute resolved = true
  walk : ∀ rule, system.tree.walk rule system.links [] (parts resolved) = system.tree.walk rule system.links [] (route place ++ behind)

/-- The kernel finds no object at the path. -/
def Unreached (system : System) (path : Str) : Prop :=
  ∀ object, system.tree.walk .follow system.links [] (parts path) ≠ .target (.existing object)

theorem isAbsolute_led {lead : Str} {place : List Str} (led : lead = [] ∨ lead = ['/']) (nonempty : lead ++ text place ≠ []) :
    isAbsolute (lead ++ text place) = true := by
  rcases led with rfl | rfl
  · cases place with
    | nil => exact absurd rfl nonempty
    | cons name place => rfl
  · rfl

/-- The resolver hands over the rest of the path as it stands. -/
theorem Stands.spells {system : System} {mount place : List Str} {cursor : Cursor} {rooted : Bool}
    (stands : Stands system mount cursor place rooted) {name rest : Str} (isName : IsName name) (separated : Separated rest) :
    Spells system (cursor.resolved ++ '/' :: name ++ rest) place (.down name :: parts rest) := by
  have led := lead_cases rooted
  rw [stands.locals.text]
  refine ⟨?_, fun rule => walk_pushed led stands.valid isName separated⟩
  rcases led with plain | doubled
  · rw [plain]
    cases place <;> rfl
  · rw [doubled]
    rfl

/-- Behind the loop the resolver's text spells the place it stands for. -/
theorem spells_conclusion {system : System} {mount place : List Str} {rooted : Bool} {resolved : Str} (valid : ∀ name ∈ place, IsName name)
    (concluded : conclusion mount place rooted = some (false, resolved)) : ¬ mount <+: place ∧ Spells system resolved place [] := by
  have shape : isAbsolute resolved = true ∧ ∃ lead, (lead = [] ∨ lead = ['/']) ∧ resolved = lead ++ (text place ++ []) := by
    rw [List.append_nil]
    rw [conclusion] at concluded
    split at concluded
    next => split at concluded <;> cases concluded
    next =>
      by_cases empty : lead rooted ++ text place = []
      · rw [if_pos empty] at concluded
        cases concluded
        exact ⟨rfl, ['/'], .inr rfl, by rw [(List.append_eq_nil_iff.mp empty).2]; rfl⟩
      · rw [if_neg empty] at concluded
        cases concluded
        exact ⟨isAbsolute_led (lead_cases rooted) empty, lead rooted, lead_cases rooted, rfl⟩
  obtain ⟨absolute, start, led, rfl⟩ := shape
  refine ⟨fun inside => ?_, absolute, fun rule => ?_⟩
  · rw [conclusion, if_pos inside] at concluded
    split at concluded <;> cases concluded
  · rw [walk_resolved led valid separated_nil, parts_eq_nil.mpr rfl]

/-- What one turn of the resolver means for its way. The turn for a final link that is left
alone is the last one. -/
inductive Turned (system : System) (mount : List Str) (resolveLastLink : Bool) (place : List Str) (rooted : Bool) (name rest : Str) :
    Option Turn → Prop
  | left {resolved : Str} {stand : List Str} {behind : List (Component Str)} :
      follow system mount resolveLastLink place rooted (part name :: parts rest) = .left stand behind →
      Spells system resolved stand behind → Unreached system resolved →
        Turned system mount resolveLastLink place rooted name rest (some (.leave resolved))
  | thrown : follow system mount resolveLastLink place rooted (part name :: parts rest) = .thrown →
      Turned system mount resolveLastLink place rooted name rest none
  | next {cursor : Cursor} {target : List Str} {again : Bool} : Stands system mount cursor target again →
      target.length + (names rest).length < 2 ^ 32 →
      follow system mount resolveLastLink place rooted (part name :: parts rest) =
        follow system mount resolveLastLink target again (parts rest) →
      Turned system mount resolveLastLink place rooted name rest (some (.next cursor))
  | last {cursor : Cursor} : rest = [] → (∀ part ∈ place ++ [name], IsName part) →
      follow system mount resolveLastLink place rooted (part name :: parts rest) = .arrived (place ++ [name]) rooted →
      cursor.matchedComponents.toNat = matchedCount mount (place ++ [name]) → cursor.resolved = lead rooted ++ text (place ++ [name]) →
      Turned system mount resolveLastLink place rooted name rest (some (.next cursor))

section turned
variable {system : System} {mount place : List Str} {cursor : Cursor} {rooted resolveLastLink : Bool} {name rest : Str}

theorem Spells.unreached {resolved : Str} {behind : List (Component Str)} (spells : Spells system resolved place behind)
    (stops : ∀ object, system.tree.walk .follow system.links [] (route place ++ behind) ≠ .target (.existing object)) :
    Unreached system resolved := by
  intro object
  rw [spells.walk]
  exact stops object

/-- Nothing lies behind a name that is missing, or behind a file with more to come. -/
theorem walk_stops (present : system.tree.lookup place = some .directory ∨ system.tree.lookup place = some .file)
    {behind : List (Component Str)}
    (ends : system.tree.lookup (place ++ [name]) = none ∨ system.tree.lookup (place ++ [name]) = some .file ∧ behind ≠ [])
    (object : List Str) : system.tree.walk .follow system.links [] (route place ++ .down name :: behind) ≠ .target (.existing object) := by
  have further : ¬ LastLink.follow.TakesLast behind := LastLink.not_takesLast_follow
  rcases present with directory | file
  · rw [NameTree.walk_from_root LastLink.not_takesLast_follow directory]
    rcases ends with absent | ⟨file, more⟩
    · rw [NameTree.walk_missing further absent]
      split
      next => simp
      next => split <;> simp
    · rw [NameTree.walk_file further file, if_neg more]
      split <;> simp
  · rw [NameTree.walk_below_file file (not_ended_down name behind)]
    simp

theorem walk_broken (link : system.tree.IsLink (place ++ [name])) (broken : system.tree.landing system.links (place ++ [name]) = none)
    (behind : List (Component Str)) (object : List Str) :
    system.tree.walk .follow system.links [] (route place ++ .down name :: behind) ≠ .target (.existing object) := by
  obtain ⟨absolute, target, present⟩ := link
  have directory := system.tree.parent present
  rw [NameTree.walk_from_root LastLink.not_takesLast_follow directory]
  intro walked
  have finds := NameTree.finds_of_walk walked
  by_cases last : behind = []
  · subst last
    have landed := landing_of_finds directory finds (Nat.le_refl _)
    rw [broken] at landed
    cases landed
  · obtain ⟨middle, leads⟩ := @NameTree.Finds.first _ _ _ _ behind _ _ [.down name] finds rfl last
    have landed := landing_of_finds directory leads (Nat.le_refl _)
    rw [broken] at landed
    cases landed

section named
variable (named : Named system) (mounted : ∀ part ∈ mount, IsName part) (stands : Stands system mount cursor place rooted)
  (isName : IsName name) (separated : Separated rest) (outside : ¬ mount <+: place)
  (small : place.length + (names rest).length + 1 < 2 ^ 32) (countable : Countable system rest)
include named mounted stands isName separated outside small countable

theorem turned_link (link : system.tree.IsLink (place ++ [name])) :
    Turned system mount resolveLastLink place rooted name rest (turn system (join mount) resolveLastLink cursor name rest) := by
  obtain ⟨absolute, target, present⟩ := link
  have found := (stands.lstat outside isName).trans present
  have real := stands.realpath isName
  have spells := stands.spells isName separated
  by_cases kept : resolveLastLink = false ∧ rest = []
  · rw [turn_kept mounted isName stands.locals outside found kept]
    refine .last kept.2 (isName_concat stands.valid isName) ?_ (stands.locals.matchedNext outside name (by omega)) ?_
    · rw [part_of_name isName, follow, if_neg outside]
      simp only [present, if_pos (And.intro kept.1 (parts_eq_nil.mpr kept.2))]
    · simp only [pushed, stands.locals.text, text_concat, List.append_assoc]
  have followed : ¬ (resolveLastLink = false ∧ parts rest = []) := fun both => kept ⟨both.1, parts_eq_nil.mp both.2⟩
  cases landed : system.tree.landing system.links (place ++ [name]) with
  | none =>
    rw [turn_broken mounted isName stands.locals outside found kept (by rw [real, landed]; rfl)]
    refine .left ?_ spells (spells.unreached (walk_broken ⟨absolute, target, present⟩ landed _))
    rw [part_of_name isName, follow, if_neg outside]
    simp only [present, if_neg followed, landed]
  | some goal =>
    have short : goal.length < 2 ^ 32 := Nat.lt_of_le_of_lt (Nat.le_add_right _ _) (countable.landing ⟨absolute, target, present⟩ landed)
    rw [turn_landed mounted isName stands.locals outside found kept (by rw [real, landed]; rfl)]
    by_cases deeper : mount <+: goal ∧ mount ≠ goal
    · rw [matchComponentsAt_join (named.valid_landing landed) mount short, if_pos deeper]
      refine .thrown ?_
      rw [part_of_name isName, follow, if_neg outside]
      simp only [present, if_neg followed, landed, if_pos deeper]
    · obtain ⟨counts, counted, arrived⟩ := stands_landing named landed short deeper
      rw [counted]
      refine .next arrived (countable.landing ⟨absolute, target, present⟩ landed) ?_
      rw [part_of_name isName, follow, if_neg outside]
      simp only [present, if_neg followed, landed, if_neg deeper]

theorem turned_name :
    Turned system mount resolveLastLink place rooted name rest (turn system (join mount) resolveLastLink cursor name rest) := by
  have found := stands.lstat outside isName
  have spells := stands.spells isName separated
  have pushed := stands.locals.pushed outside isName.plain (show place.length + 1 < 2 ^ 32 by omega)
  have longer : (place ++ [name]).length + (names rest).length < 2 ^ 32 := by
    rw [List.length_append, List.length_singleton]
    omega
  cases present : system.tree.lookup (place ++ [name]) with
  | none =>
    rw [turn_missing mounted isName stands.locals outside (found.trans present)]
    refine .left ?_ spells (spells.unreached (walk_stops (stands.present outside) (.inl present)))
    rw [part_of_name isName, follow, if_neg outside]
    simp only [present]
  | some node =>
    cases node with
    | directory =>
      rw [turn_directory mounted isName stands.locals outside (found.trans present)]
      refine .next (stands.push isName pushed fun _ => .inl present) longer ?_
      rw [part_of_name isName, follow, if_neg outside]
      simp only [present]
    | file =>
      rw [turn_file mounted isName stands.locals outside (found.trans present)]
      split
      next ended =>
        refine .next (stands.push isName pushed fun _ => .inr present) longer ?_
        rw [part_of_name isName, follow, if_neg outside, parts_eq_nil.mpr ended]
        simp only [present, follow, if_true]
      next more =>
        have further : parts rest ≠ [] := mt parts_eq_nil.mp more
        refine .left ?_ spells (spells.unreached (walk_stops (stands.present outside) (.inr ⟨present, further⟩)))
        rw [part_of_name isName, follow, if_neg outside]
        simp only [present, if_neg further]
    | link absolute target => exact turned_link named mounted stands isName separated outside small countable ⟨absolute, target, present⟩

end named

theorem turned_turn (named : Named system) (mounted : ∀ part ∈ mount, IsName part) (stands : Stands system mount cursor place rooted)
    {path : Str} (first : First path name rest) (small : place.length + (names rest).length + 1 < 2 ^ 32)
    (countable : Countable system rest) :
    Turned system mount resolveLastLink place rooted name rest (turn system (join mount) resolveLastLink cursor name rest) := by
  by_cases dot : name = ['.']
  · subst dot
    exact .next stands (Nat.lt_of_succ_lt small) rfl
  by_cases dotDot : name = ['.', '.']
  · subst dotDot
    obtain ⟨next, rolled, above⟩ := stands.rollback
    rw [turn, if_neg (by decide), if_pos rfl, rolled]
    refine .next above ?_ rfl
    rw [List.length_dropLast]
    omega
  have isName : IsName name := ⟨first.nonempty, first.plain, dot, dotDot⟩
  by_cases inside : mount <+: place
  · have pushed := stands.locals.pushInside inside isName.plain (show place.length + 1 < 2 ^ 32 by omega)
    rw [turn_inside mounted isName stands.locals inside]
    refine .next (stands.push isName pushed fun outside => absurd inside outside) ?_ ?_
    · rw [List.length_append, List.length_singleton]
      omega
    · rw [part_of_name isName, follow, if_pos inside]
  · exact turned_name named mounted stands isName first.separated inside small countable

inductive Ends (system : System) (mount : List Str) : Ending → Option (Bool × Str) → Prop
  | left {resolved : Str} {place : List Str} {behind : List (Component Str)} : Spells system resolved place behind →
      Unreached system resolved → Ends system mount (.left place behind) (some (false, resolved))
  | thrown : Ends system mount .thrown none
  | arrived {place : List Str} (rooted : Bool) : (∀ name ∈ place, IsName name) →
      Ends system mount (.arrived place rooted) (conclusion mount place rooted)

/-- The resolver ends where its way through the tree does. -/
theorem ends_resolveLoop (named : Named system) (mounted : ∀ part ∈ mount, IsName part) (resolveLastLink : Bool)
    (stands : Stands system mount cursor place rooted) (path : Str) (small : place.length + (names path).length < 2 ^ 32)
    (countable : Countable system path) :
    Ends system mount (follow system mount resolveLastLink place rooted (parts path))
      (resolveLoop system (join mount) resolveLastLink (tokens path) cursor) := by
  generalize all : tokens path = behind
  induction behind generalizing path cursor place rooted with
  | nil =>
    have ended : follow system mount resolveLastLink place rooted (parts path) = .arrived place rooted := by
      rcases parts_of_tokens_nil all with none | slash
      · rw [none]
        rfl
      · rw [slash]
        rfl
    have concluded : conclude (join mount) cursor = conclusion mount place rooted :=
      conclude_counted mounted stands.locals.matched stands.locals.text
    rw [ended, resolveLoop, concluded]
    exact .arrived rooted stands.valid
  | cons token behind ih =>
    obtain ⟨name, rest⟩ := token
    obtain ⟨first, rfl⟩ := first_of_tokens all
    have next : names path = name :: names rest := by rw [← map_tokens, all, List.map_cons, map_tokens]
    have fewer : place.length + (names rest).length + 1 < 2 ^ 32 := by rwa [next, List.length_cons, ← Nat.add_assoc] at small
    have turned := @turned_turn system mount place cursor rooted resolveLastLink name rest named mounted stands path first fewer
      (countable.rest next)
    rw [first.parts, resolveLoop]
    generalize turn system (join mount) resolveLastLink cursor name rest = result at turned
    cases turned with
    | left ended spells unreached =>
      rw [ended]
      exact .left spells unreached
    | thrown ended =>
      rw [ended]
      exact .thrown
    | next stands still same =>
      rw [same]
      exact ih stands rest still (countable.rest next) rfl
    | @last kept ended valid same matched resolved =>
      subst ended
      have concluded : resolveLoop system (join mount) resolveLastLink (tokens []) kept = conclusion mount (place ++ [name]) rooted :=
        conclude_counted mounted matched resolved
      simp only [same, Option.bind_eq_bind, Option.bind_some, concluded]
      exact .arrived rooted valid

end turned

theorem excluded_of_internal {system : System} {mountdir : Str} {resolveLastLink : Bool} {path resolved : Str}
    (answer : resolve system mountdir resolveLastLink path = some (true, resolved)) : excluded path = false := by
  by_contra spared
  rw [resolve, if_pos (by simpa using spared)] at answer
  cases answer

theorem ends_resolve {system : System} (named : Named system) {mount : List Str} (mounted : ∀ part ∈ mount, IsName part)
    (resolveLastLink : Bool) {path : Str} (plain : excluded path = false) (countable : Countable system path) :
    Ends system mount (follow system mount resolveLastLink [] false (parts path)) (resolve system (join mount) resolveLastLink path) := by
  rw [resolve, plain, if_neg Bool.false_ne_true]
  exact ends_resolveLoop named mounted resolveLastLink (Stands.root system mount) path (by simpa using countable.names) countable

theorem Ends.of_some {system : System} {mount : List Str} {ending : Ending} {internal : Bool} {resolved : Str}
    (ends : Ends system mount ending (some (internal, resolved))) :
    (internal = false ∧ Unreached system resolved) ∨
      ∃ place rooted, ending = .arrived place rooted ∧ conclusion mount place rooted = some (internal, resolved) := by
  generalize shape : some (internal, resolved) = result at ends
  cases ends with
  | left _ unreached =>
    cases shape
    exact .inl ⟨rfl, unreached⟩
  | thrown => cases shape
  | @arrived place rooted _ => exact .inr ⟨place, rooted, rfl, rfl⟩

end GekkoFwd.Proofs.ResolverWalk
