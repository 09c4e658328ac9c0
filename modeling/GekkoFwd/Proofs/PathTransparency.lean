import GekkoFwd.Proofs.ResolverWalk

/-! How the kernel's walk of the path that a hook hands over ends, against how its walk of
the path of the application does. -/

namespace GekkoFwd.Proofs.PathTransparency
open Lib.NamingTree GekkoFwd.Path PathResolver PathText PathResolution ResolverWalk

/-- An external tree with a mount directory that no link leads into. What lies below the
mount directory is not external. -/
structure External (system : System) (mount : List Str) : Prop where
  named : ∀ {place : List Str} {name : Str} {node : Node Str},
    system.tree.lookup (place ++ [name]) = some node → IsName name
  directory : system.tree.lookup mount = some .directory
  vacant : ∀ (name : Str) (below : List Str), system.tree.lookup (mount ++ name :: below) = none
  outside : ∀ {place target : List Str}, system.tree.IsLink place →
    system.tree.landing system.links place = some target → ¬ mount <+: target

theorem External.valid {system : System} {mount place : List Str} (external : External system mount) {node : Node Str}
    (present : system.tree.lookup place = some node) : ∀ name ∈ place, IsName name :=
  Named.valid external.named present

theorem External.lookup_below {system : System} {mount place : List Str} (external : External system mount) (inside : mount <+: place)
    (name : Str) : system.tree.lookup (place ++ [name]) = none := by
  obtain ⟨below, rfl⟩ := inside
  cases below with
  | nil => simpa using external.vacant name []
  | cons first below => simpa using external.vacant first (below ++ [name])

/-- How the kernel's walk of a path ends, in a call with this rule for the last component. -/
def outcome (system : System) (rule : LastLink) (start : List Str) (path : Str) : Walked Str :=
  if path = [] then .refused .notFound
  else system.tree.walk rule system.links (if isAbsolute path then [] else start) (parts path)

theorem outcome_absolute {system : System} {rule : LastLink} (start : List Str) {path : Str} (absolute : isAbsolute path = true) :
    outcome system rule start path = system.tree.walk rule system.links [] (parts path) := by
  have nonempty : path ≠ [] := by
    rintro rfl
    cases absolute
  rw [outcome, if_neg nonempty, if_pos absolute]

/-- What is left of a path at a file: nothing but slashes and `.` come before a name. -/
def NameNext : List (Component Str) → Prop
  | [] => False
  | .here :: rest => NameNext rest
  | .slash :: rest => NameNext rest
  | .up :: _ => False
  | .down _ :: _ => True

instance decidableNameNext : (components : List (Component Str)) → Decidable (NameNext components)
  | [] => .isFalse id
  | .here :: rest => decidableNameNext rest
  | .slash :: rest => decidableNameNext rest
  | .up :: _ => .isFalse id
  | .down _ :: _ => .isTrue trivial

section straight
variable (system : System) (mount : List Str) (rule : LastLink) (resolveLastLink : Bool)

/-- The path leads the resolver where it leads the kernel. No name is taken below the mount
directory, and a link on the way leads to a directory, or to a file that the next component
is looked for in. A link at the end is one that the call follows, that the resolver leaves
alone or that leads nowhere. An entry that leads somewhere has a name, and no slash after it
that counts. -/
def Straight : List Str → List (Component Str) → Prop
  | place, [] => rule.isEntry = true → place = []
  | place, .here :: rest => ¬ rule.TakesLast rest ∧ Straight place rest
  | place, .slash :: rest => Straight place rest
  | place, .up :: rest => ¬ rule.TakesLast rest ∧ Straight place.dropLast rest
  | place, .down name :: rest =>
    ¬ mount <+: place ∧
      match system.tree.lookup (place ++ [name]) with
      | none => True
      | some .file => True
      | some .directory => if rule.TakesLast rest then rule = .entry true → rest = [] else Straight (place ++ [name]) rest
      | some (.link ..) =>
        match system.tree.landing system.links (place ++ [name]) with
        | none => True
        | some target =>
          if rest = [] ∨ rule.TakesLast rest then rest = [] ∧ (rule = .follow ∨ resolveLastLink = false)
          else if system.tree.lookup target = some .file then NameNext rest
          else Straight target rest

instance decidableStraight : (place : List Str) → (components : List (Component Str)) →
    Decidable (Straight system mount rule resolveLastLink place components)
  | place, [] => inferInstanceAs (Decidable (_ → place = []))
  | place, .here :: rest =>
    have := decidableStraight place rest
    inferInstanceAs (Decidable (_ ∧ _))
  | place, .slash :: rest => decidableStraight place rest
  | place, .up :: rest =>
    have := decidableStraight place.dropLast rest
    inferInstanceAs (Decidable (_ ∧ _))
  | place, .down name :: rest =>
    have := fun next => decidableStraight next rest
    @instDecidableAnd _ _ _ <|
      match system.tree.lookup (place ++ [name]) with
      | none => .isTrue trivial
      | some .file => .isTrue trivial
      | some .directory =>
        inferInstanceAs (Decidable
          (if rule.TakesLast rest then rule = .entry true → rest = []
          else Straight system mount rule resolveLastLink (place ++ [name]) rest))
      | some (.link ..) =>
        match system.tree.landing system.links (place ++ [name]) with
        | none => .isTrue trivial
        | some target =>
          inferInstanceAs (Decidable
            (if rest = [] ∨ rule.TakesLast rest then rest = [] ∧ (rule = .follow ∨ resolveLastLink = false)
            else if system.tree.lookup target = some .file then NameNext rest
            else Straight system mount rule resolveLastLink target rest))

end straight

/-- The resolver does not end in the mount directory. -/
def Outside (mount : List Str) : Ending → Prop
  | .arrived place _ => ¬ mount <+: place
  | _ => True

/-- How the kernel's walk of the text ends that the resolver returns. -/
def handedWalk (system : System) (rule : LastLink) : Ending → Option (Walked Str)
  | .left place behind => some (system.tree.walk rule system.links [] (route place ++ behind))
  | .thrown => none
  | .arrived place _ => some (system.tree.walk rule system.links [] (route place))

/-- The text that the resolver returns is walked as its way has ended. -/
theorem handedWalk_of_resolve {system : System} {mount : List Str} (external : External system mount) {resolveLastLink : Bool}
    {path resolved : Str} (countable : Countable system path) (plain : excluded path = false)
    (answer : resolve system (join mount) resolveLastLink path = some (false, resolved)) (rule : LastLink) (start : List Str) :
    Outside mount (follow system mount resolveLastLink [] false (parts path)) ∧
      handedWalk system rule (follow system mount resolveLastLink [] false (parts path)) = some (outcome system rule start resolved) := by
  have ends := ends_resolve external.named (external.valid external.directory) resolveLastLink plain countable
  rw [answer] at ends
  generalize follow system mount resolveLastLink [] false (parts path) = ending at ends
  generalize shape : some (false, resolved) = result at ends
  cases ends with
  | left spells _ =>
    cases shape
    rw [outcome_absolute start spells.absolute, spells.walk]
    exact ⟨trivial, rfl⟩
  | thrown => cases shape
  | arrived rooted valid =>
    obtain ⟨outside, spells⟩ := spells_conclusion valid shape.symm
    rw [outcome_absolute start spells.absolute, spells.walk, List.append_nil]
    exact ⟨outside, rfl⟩

section follow
variable {system : System} {mount place : List Str} {rooted resolveLastLink : Bool} {name : Str} {rest : List (Component Str)}

theorem follow_ended (ended : Ended rest) : follow system mount resolveLastLink place rooted rest = .arrived place rooted := by
  induction rest with
  | nil => rfl
  | cons component rest ih =>
    obtain ⟨rfl, others⟩ := List.forall_mem_cons.mp ended
    exact ih others

theorem follow_inside (inside : mount <+: place) :
    follow system mount resolveLastLink place rooted (.down name :: rest) = follow system mount resolveLastLink
      (place ++ [name]) rooted rest := by
  rw [follow, if_pos inside]

section outside
variable (outside : ¬ mount <+: place)
include outside

theorem follow_directory (directory : system.tree.lookup (place ++ [name]) = some .directory) :
    follow system mount resolveLastLink place rooted (.down name :: rest) = follow system mount resolveLastLink
      (place ++ [name]) rooted rest := by
  simp only [follow, if_neg outside, directory]

theorem follow_missing (absent : system.tree.lookup (place ++ [name]) = none) :
    follow system mount resolveLastLink place rooted (.down name :: rest) = .left place (.down name :: rest) := by
  simp only [follow, if_neg outside, absent]

theorem follow_file (file : system.tree.lookup (place ++ [name]) = some .file) :
    follow system mount resolveLastLink place rooted (.down name :: rest) =
      if rest = [] then .arrived (place ++ [name]) rooted else .left place (.down name :: rest) := by
  simp only [follow, if_neg outside, file]

section link
variable (link : system.tree.IsLink (place ++ [name]))
include link

theorem follow_kept (kept : resolveLastLink = false ∧ rest = []) :
    follow system mount resolveLastLink place rooted (.down name :: rest) = .arrived (place ++ [name]) rooted := by
  obtain ⟨absolute, target, link⟩ := link
  simp only [follow, if_neg outside, link, if_pos kept]

theorem follow_broken (resolves : ¬ (resolveLastLink = false ∧ rest = []))
    (broken : system.tree.landing system.links (place ++ [name]) = none) :
    follow system mount resolveLastLink place rooted (.down name :: rest) = .left place (.down name :: rest) := by
  obtain ⟨absolute, target, link⟩ := link
  simp only [follow, if_neg outside, link, if_neg resolves, broken]

theorem follow_landed (external : External system mount) (resolves : ¬ (resolveLastLink = false ∧ rest = [])) {target : List Str}
    (landed : system.tree.landing system.links (place ++ [name]) = some target) :
    follow system mount resolveLastLink place rooted (.down name :: rest) =
      follow system mount resolveLastLink target target.isEmpty rest := by
  have elsewhere : ¬ (mount <+: target ∧ mount ≠ target) := fun deeper => external.outside link landed deeper.1
  obtain ⟨absolute, parts, link⟩ := link
  simp only [follow, if_neg outside, link, if_neg resolves, landed, if_neg elsewhere]

end link

/-- Below a file there is nothing for the resolver to look at. -/
theorem follow_nameNext (file : system.tree.lookup place = some .file) (nameNext : NameNext rest) :
    ∃ name behind, follow system mount resolveLastLink place rooted rest = .left place (.down name :: behind) := by
  induction rest with
  | nil => exact nameNext.elim
  | cons component rest ih =>
    cases component with
    | here => exact ih nameNext
    | slash => exact ih nameNext
    | up => exact nameNext.elim
    | down name =>
      refine ⟨name, rest, follow_missing outside ?_⟩
      cases present : system.tree.lookup (place ++ [name]) with
      | none => rfl
      | some node => exact absurd (system.tree.parent present) (by simp [file])

end outside

end follow

theorem not_nameNext_of_ended {rest : List (Component Str)} (ended : Ended rest) : ¬ NameNext rest := by
  induction rest with
  | nil => exact id
  | cons component rest ih =>
    obtain ⟨rfl, others⟩ := List.forall_mem_cons.mp ended
    exact ih others

/-- The walk of what is handed over ends as the application's does if the path is straight, and
only then if the application's path leads somewhere. -/
structure Agrees (straight : Prop) (handed : Option (Walked Str)) (walked : Walked Str) : Prop where
  same : straight → handed = some walked
  straight : walked.Succeeds → handed = some walked → straight

namespace Agrees
variable {straight : Prop} {handed : Option (Walked Str)} {walked : Walked Str}

theorem of_same (holds : straight) (same : handed = some walked) : Agrees straight handed walked :=
  ⟨fun _ => same, fun _ _ => holds⟩

theorem of_other (fails : ¬ straight) (other : walked.Succeeds → handed ≠ some walked) : Agrees straight handed walked :=
  ⟨fun holds => absurd holds fails, fun succeeds same => absurd same (other succeeds)⟩

theorem and_of (agrees : Agrees straight handed walked) {further : Prop} (holds : further) : Agrees (further ∧ straight) handed walked :=
  ⟨fun both => agrees.same both.2, fun succeeds same => ⟨holds, agrees.straight succeeds same⟩⟩

end Agrees

section agrees
variable {system : System} {mount place : List Str} {rule : LastLink} {rooted resolveLastLink : Bool} {links : Nat} {name : Str}
  {rest : List (Component Str)}

/-- From a directory on, the kernel's walk is the same with all of the links allowed. -/
theorem walk_from_here (enough : links ≤ system.links) (directory : system.tree.lookup place = some .directory)
    (within : system.tree.walk rule links place (.down name :: rest) ≠ .tooManyLinks) :
    system.tree.walk rule system.links [] (route place ++ .down name :: rest) = system.tree.walk rule links place (.down name :: rest) := by
  have further : ¬ rule.TakesLast (.down name :: rest) := LastLink.not_takesLast_of_not_ended (not_ended_down name rest)
  rw [NameTree.walk_from_root further directory, NameTree.walk_more enough within]

/-- The walk to a place by its names. -/
theorem walk_place (rule : LastLink) (present : ∃ node, system.tree.lookup place = some node) (links : Nat) :
    system.tree.walk rule links [] (route place) = rule.atStart [] ∧ place = [] ∨
      ∃ init last, place = init ++ [last] ∧
        system.tree.walk rule links [] (route place) = system.tree.walk rule links init [.down last] := by
  rcases List.eq_nil_or_concat place with rfl | ⟨init, last, rfl⟩
  · exact .inl ⟨NameTree.walk_nil, rfl⟩
  · rw [List.concat_eq_append] at present ⊢
    obtain ⟨node, present⟩ := present
    have further : ¬ rule.TakesLast [Component.down last] := LastLink.not_takesLast_of_not_ended (not_ended_down last [])
    refine .inr ⟨init, last, rfl, ?_⟩
    rw [← List.append_nil (route _), route_concat, NameTree.walk_from_root further (system.tree.parent present)]

/-- An entry that is named by its place alone. -/
theorem walk_place_entry (entry : rule.isEntry = true) (present : ∃ node, system.tree.lookup place = some node) (links : Nat) :
    system.tree.walk rule links [] (route place) = .entry [] .root ∧ place = [] ∨
      ∃ init last, place = init ++ [last] ∧ system.tree.walk rule links [] (route place) = .entry init (.name last false) := by
  rcases walk_place rule present links with ⟨walked, root⟩ | ⟨init, last, whole, walked⟩
  · refine .inl ⟨?_, root⟩
    rw [walked, LastLink.atStart, if_pos entry]
  · refine .inr ⟨init, last, whole, ?_⟩
    rw [walked, NameTree.walk_entry ⟨entry, ended_nil⟩]
    rfl

theorem walk_place_object (object : rule.isEntry = false)
    (present : system.tree.lookup place = some .directory ∨ system.tree.lookup place = some .file) (links : Nat) :
    system.tree.walk rule links [] (route place) = .target (.existing place) := by
  have further : ¬ rule.TakesLast ([] : List (Component Str)) := LastLink.not_takesLast_of_object object
  rcases walk_place rule (present.elim (fun here => ⟨_, here⟩) fun here => ⟨_, here⟩) links with ⟨walked, rfl⟩ | ⟨init, last, rfl, walked⟩
  · rw [walked, LastLink.atStart, object]
    rfl
  · rw [walked]
    rcases present with directory | file
    · rw [NameTree.walk_directory further directory, NameTree.walk_nil, LastLink.atStart, object]
      rfl
    · rw [NameTree.walk_file further file, if_pos rfl]

/-- The last component of a path to an entry is no name. -/
theorem walk_place_ne {last : Last Str} {directory : List Str} (entry : rule.isEntry = true)
    (present : ∃ node, system.tree.lookup place = some node)
    (nameless : last = .dot ∨ last = .dotDot) : system.tree.walk rule links [] (route place) ≠ .entry directory last := by
  rcases walk_place_entry entry present links with ⟨walked, _⟩ | ⟨init, name, _, walked⟩ <;> rw [walked]
  · rcases nameless with rfl | rfl <;> simp
  · rcases nameless with rfl | rfl <;> simp

theorem agrees_nil (directory : system.tree.lookup place = some .directory) :
    Agrees (Straight system mount rule resolveLastLink place []) (handedWalk system rule (.arrived place rooted))
      (system.tree.walk rule links place []) := by
  rw [NameTree.walk_nil, handedWalk, Straight]
  cases entry : rule.isEntry with
  | false =>
    refine .of_same (by simp) ?_
    rw [walk_place_object entry (.inl directory), LastLink.atStart, entry]
    rfl
  | true =>
    rcases walk_place_entry entry ⟨_, directory⟩ system.links with ⟨walked, rfl⟩ | ⟨init, last, rfl, walked⟩
    · refine .of_same (by simp) ?_
      rw [walked, LastLink.atStart, if_pos entry]
    · refine .of_other (by simp) fun _ => ?_
      rw [walked, LastLink.atStart, if_pos entry]
      simp

/-- What is left to the kernel from a directory on. -/
theorem agrees_left {straight : Prop} (holds : straight) (enough : links ≤ system.links)
    (directory : system.tree.lookup place = some .directory)
    (within : system.tree.walk rule links place (.down name :: rest) ≠ .tooManyLinks) :
    Agrees straight (handedWalk system rule (.left place (.down name :: rest))) (system.tree.walk rule links place (.down name :: rest)) :=
  .of_same holds (congrArg some (walk_from_here enough directory within))

theorem agrees_arrived {straight : Prop} (holds : straight) (enough : links ≤ system.links)
    (directory : system.tree.lookup place = some .directory)
    (within : system.tree.walk rule links place [.down name] ≠ .tooManyLinks) :
    Agrees straight (handedWalk system rule (.arrived (place ++ [name]) rooted)) (system.tree.walk rule links place [.down name]) := by
  refine .of_same holds ?_
  rw [handedWalk, ← List.append_nil (route _), route_concat, walk_from_here enough directory within]

/-- The kernel makes or finds nothing below the mount directory that is not there for the resolver. -/
theorem agrees_inside (external : External system mount) (inside : mount <+: place)
    (outside : Outside mount (follow system mount resolveLastLink place rooted (.down name :: rest))) :
    Agrees (Straight system mount rule resolveLastLink place (.down name :: rest))
      (handedWalk system rule (follow system mount resolveLastLink place rooted (.down name :: rest)))
      (system.tree.walk rule links place (.down name :: rest)) := by
  refine .of_other (fun straight => straight.1 inside) fun succeeds _ => ?_
  by_cases ended : Ended rest
  · rw [follow_inside inside, follow_ended ended] at outside
    exact outside (inside.trans (List.prefix_append place [name]))
  · rw [NameTree.walk_missing (LastLink.not_takesLast_of_not_ended ended) (external.lookup_below inside name),
      if_neg (ne_nil_of_not_ended ended), if_neg ended] at succeeds
    exact succeeds

theorem agrees_file (outside : ¬ mount <+: place) (present : system.tree.lookup (place ++ [name]) = some .file)
    (enough : links ≤ system.links) (within : system.tree.walk rule links place (.down name :: rest) ≠ .tooManyLinks) :
    Agrees (Straight system mount rule resolveLastLink place (.down name :: rest))
      (handedWalk system rule (follow system mount resolveLastLink place rooted (.down name :: rest)))
      (system.tree.walk rule links place (.down name :: rest)) := by
  have straight : Straight system mount rule resolveLastLink place (.down name :: rest) := ⟨outside, by simp only [present]⟩
  rw [follow_file outside present]
  split
  next ended =>
    subst ended
    exact agrees_arrived straight enough (system.tree.parent present) within
  next => exact agrees_left straight enough (system.tree.parent present) within

/-- A link that leads nowhere. -/
theorem agrees_broken_link (outside : ¬ mount <+: place) (link : system.tree.IsLink (place ++ [name]))
    (broken : system.tree.landing system.links (place ++ [name]) = none) (enough : links ≤ system.links)
    (within : system.tree.walk rule links place (.down name :: rest) ≠ .tooManyLinks) :
    Agrees (Straight system mount rule resolveLastLink place (.down name :: rest))
      (handedWalk system rule (follow system mount resolveLastLink place rooted (.down name :: rest)))
      (system.tree.walk rule links place (.down name :: rest)) := by
  obtain ⟨absolute, target, present⟩ := id link
  have directory := system.tree.parent present
  have straight : Straight system mount rule resolveLastLink place (.down name :: rest) := ⟨outside, by simp only [present, broken]⟩
  by_cases kept : resolveLastLink = false ∧ rest = []
  · rw [follow_kept outside link kept]
    obtain ⟨_, rfl⟩ := kept
    exact agrees_arrived straight enough directory within
  · rw [follow_broken outside link kept broken]
    exact agrees_left straight enough directory within

/-- A directory at the end of a path to an entry. -/
theorem agrees_directory (last : rule.TakesLast rest) (outside : ¬ mount <+: place)
    (present : system.tree.lookup (place ++ [name]) = some .directory) :
    Agrees (Straight system mount rule resolveLastLink place (.down name :: rest))
      (handedWalk system rule (follow system mount resolveLastLink place rooted (.down name :: rest)))
      (system.tree.walk rule links place (.down name :: rest)) := by
  have directory := system.tree.parent present
  have none : rule.TakesLast ([] : List (Component Str)) := ⟨last.1, ended_nil⟩
  have further : ¬ rule.TakesLast [Component.down name] := LastLink.not_takesLast_of_not_ended (not_ended_down name [])
  have straight : Straight system mount rule resolveLastLink place (.down name :: rest) ↔ (rule = .entry true → rest = []) := by
    simp only [Straight, present, if_pos last, outside, not_false_eq_true, true_and]
  have handed : handedWalk system rule (.arrived (place ++ [name]) rooted) = some (.entry place (.name name false)) := by
    rw [handedWalk, ← List.append_nil (route _), route_concat, NameTree.walk_from_root further directory, NameTree.walk_entry none]
    rfl
  rw [straight, follow_directory outside present, follow_ended last.2, handed, NameTree.walk_entry last, present]
  obtain ⟨tellsSlash, rfl⟩ : ∃ tellsSlash, rule = .entry tellsSlash := by
    cases rule with
    | entry tellsSlash => exact ⟨tellsSlash, rfl⟩
    | follow => cases last.1
    | keep => cases last.1
  cases rest with
  | nil => exact .of_same (fun _ => rfl) rfl
  | cons component rest =>
    cases tellsSlash with
    | false => exact .of_same (by simp) rfl
    | true => exact .of_other (by simp) (by simp [LastLink.tells])

theorem ne_of_landing (link : system.tree.IsLink place) {target : List Str}
    (landed : system.tree.landing system.links place = some target) : target ≠ place := by
  rintro rfl
  obtain ⟨absolute, parts, link⟩ := link
  rcases landing_present landed with directory | file
  · simp [directory] at link
  · simp [file] at link

/-- The entry that holds a link is not the entry that holds what the link leads to. -/
theorem walk_landing_ne_entry (entry : rule.isEntry = true) (link : system.tree.IsLink (place ++ [name])) {target : List Str}
    (landed : system.tree.landing system.links (place ++ [name]) = some target) (ended : Ended rest) :
    system.tree.walk rule system.links [] (route target) ≠ system.tree.walk rule links place (.down name :: rest) := by
  have there := landing_present landed
  rw [NameTree.walk_entry ⟨entry, ended⟩]
  rcases walk_place_entry entry (there.elim (fun here => ⟨_, here⟩) fun here => ⟨_, here⟩) system.links with
    ⟨walked, _⟩ | ⟨init, other, rfl, walked⟩
  · simp [walked]
  · rw [walked]
    intro same
    simp only [Walked.entry.injEq, Last.name.injEq] at same
    obtain ⟨rfl, rfl, _⟩ := same
    exact ne_of_landing link landed rfl

/-- A link at the end of a path that leads to an object. -/
theorem agrees_last_link (external : External system mount) (outside : ¬ mount <+: place) (enough : links ≤ system.links)
    (link : system.tree.IsLink (place ++ [name])) {target : List Str}
    (landed : system.tree.landing system.links (place ++ [name]) = some target) (last : rest = [] ∨ rule.TakesLast rest)
    (within : system.tree.walk rule links place (.down name :: rest) ≠ .tooManyLinks) :
    Agrees (Straight system mount rule resolveLastLink place (.down name :: rest))
      (handedWalk system rule (follow system mount resolveLastLink place rooted (.down name :: rest)))
      (system.tree.walk rule links place (.down name :: rest)) := by
  obtain ⟨absolute, parts, present⟩ := id link
  have directory := system.tree.parent present
  have straight : Straight system mount rule resolveLastLink place (.down name :: rest) ↔
      rest = [] ∧ (rule = .follow ∨ resolveLastLink = false) := by
    simp only [Straight, present, landed, if_pos last, outside, not_false_eq_true, true_and]
  by_cases kept : resolveLastLink = false ∧ rest = []
  · obtain ⟨rfl, rfl⟩ := kept
    rw [follow_kept outside link ⟨rfl, rfl⟩]
    exact agrees_arrived (straight.mpr ⟨rfl, .inr rfl⟩) enough directory within
  have ended : Ended rest := by
    rcases last with rfl | takes
    · exact ended_nil
    · exact takes.2
  have there := landing_present landed
  rw [follow_landed outside link external kept landed, follow_ended ended, handedWalk]
  cases entry : rule.isEntry with
  | true =>
    refine .of_other (fun holds => ?_) fun _ => ?_
    · obtain ⟨rfl, rfl | unresolved⟩ := straight.mp holds
      · cases entry
      · exact kept ⟨unresolved, rfl⟩
    · exact fun same => walk_landing_ne_entry entry link landed ended (Option.some.inj same)
  | false =>
    obtain rfl : rest = [] := last.resolve_right (LastLink.not_takesLast_of_object entry)
    rw [walk_place_object entry there]
    cases rule with
    | entry tellsSlash => cases entry
    | follow =>
      refine .of_same (straight.mpr ⟨rfl, .inl rfl⟩) ?_
      rw [← walk_from_here enough directory within, ← route_concat, List.append_nil, NameTree.walk_of_landing landed]
    | keep =>
      refine .of_other (fun holds => ?_) fun _ => ?_
      · obtain ⟨_, followed | unresolved⟩ := straight.mp holds
        · cases followed
        · exact kept ⟨unresolved, rfl⟩
      · rw [NameTree.walk_kept present]
        intro same
        simp only [Option.some.injEq, Walked.target.injEq, Target.existing.injEq] at same
        exact ne_of_landing link landed same

theorem finds_of_landing (directory : system.tree.lookup place = some .directory) {target : List Str}
    (landed : system.tree.landing system.links (place ++ [name]) = some target) :
    NameTree.Finds system.tree system.links place [.down name] (.existing target) := by
  have walked := NameTree.walk_of_landing landed
  rw [← List.append_nil (route _), route_concat, NameTree.walk_from_root LastLink.not_takesLast_follow directory] at walked
  exact NameTree.finds_of_walk walked

/-- A link on the way, with the rest of the path taken from where it leads. -/
theorem agrees_link (external : External system mount) (outside : ¬ mount <+: place)
    (link : system.tree.IsLink (place ++ [name])) {target : List Str}
    (landed : system.tree.landing system.links (place ++ [name]) = some target) (more : rest ≠ []) (further : ¬ rule.TakesLast rest)
    (within : system.tree.walk rule links place (.down name :: rest) ≠ .tooManyLinks)
    (behind : ∀ fewer, fewer ≤ links → system.tree.lookup target = some .directory →
      system.tree.walk rule links place (.down name :: rest) = system.tree.walk rule fewer target rest →
      Agrees (Straight system mount rule resolveLastLink target rest)
        (handedWalk system rule (follow system mount resolveLastLink target target.isEmpty rest))
        (system.tree.walk rule fewer target rest)) :
    Agrees (Straight system mount rule resolveLastLink place (.down name :: rest))
      (handedWalk system rule (follow system mount resolveLastLink place rooted (.down name :: rest)))
      (system.tree.walk rule links place (.down name :: rest)) := by
  obtain ⟨absolute, parts, present⟩ := id link
  have directory := system.tree.parent present
  have straight : Straight system mount rule resolveLastLink place (.down name :: rest) ↔
      if system.tree.lookup target = some .file then NameNext rest else Straight system mount rule resolveLastLink target rest := by
    simp only [Straight, present, landed, if_neg (not_or.mpr ⟨more, further⟩), outside, not_false_eq_true, true_and]
  have goesOn := (finds_of_landing directory landed).goesOn directory rfl more further within
  rw [straight, follow_landed outside link external (fun kept => more kept.2) landed]
  generalize walked : system.tree.walk rule links place ([.down name] ++ rest) = result at goesOn
  rw [List.singleton_append] at walked
  rw [walked]
  cases goesOn with
  | directory there fewer =>
    rw [if_neg (by simp [there])]
    exact behind _ fewer there walked
  | slashed file ended =>
    rw [if_pos file]
    exact .of_other (not_nameNext_of_ended ended) fun succeeds => succeeds.elim
  | refused file unended =>
    rw [if_pos file]
    refine ⟨fun nameNext => ?_, fun succeeds => succeeds.elim⟩
    obtain ⟨next, behind, left⟩ := follow_nameNext (external.outside link landed) file nameNext
    rw [left, handedWalk, NameTree.walk_below_file file (not_ended_down next behind)]

/-- The induction is on the path. The kernel may have followed links before, and has fewer left
than a walk from the root. -/
theorem agrees_follow (external : External system mount) {components : List (Component Str)} (enough : links ≤ system.links)
    (directory : system.tree.lookup place = some .directory)
    (within : system.tree.walk rule links place components ≠ .tooManyLinks)
    (outside : Outside mount (follow system mount resolveLastLink place rooted components)) :
    Agrees (Straight system mount rule resolveLastLink place components)
      (handedWalk system rule (follow system mount resolveLastLink place rooted components))
      (system.tree.walk rule links place components) := by
  induction components generalizing place rooted links with
  | nil => exact agrees_nil directory
  | cons component rest ih =>
    cases component with
    | slash =>
      rw [NameTree.walk_slash] at within ⊢
      exact ih enough directory within outside
    | here =>
      by_cases last : rule.TakesLast rest
      · refine .of_other (fun straight => straight.1 last) fun _ same => ?_
        rw [NameTree.walk_dot last, follow, follow_ended last.2] at same
        exact walk_place_ne last.1 ⟨_, directory⟩ (.inl rfl) (Option.some.inj same)
      · rw [NameTree.walk_here last] at within ⊢
        exact (ih enough directory within outside).and_of last
    | up =>
      have above := NameTree.lookup_dropLast directory
      by_cases last : rule.TakesLast rest
      · refine .of_other (fun straight => straight.1 last) fun _ same => ?_
        rw [NameTree.walk_dotDot last, follow, follow_ended last.2] at same
        exact walk_place_ne last.1 ⟨_, above⟩ (.inr rfl) (Option.some.inj same)
      · rw [NameTree.walk_up last] at within ⊢
        exact (ih enough above within outside).and_of last
    | down name =>
      by_cases inside : mount <+: place
      · exact agrees_inside external inside outside
      cases present : system.tree.lookup (place ++ [name]) with
      | none =>
        rw [follow_missing inside present]
        exact agrees_left ⟨inside, by simp only [present]⟩ enough directory within
      | some node =>
        cases node with
        | file => exact agrees_file inside present enough within
        | directory =>
          by_cases last : rule.TakesLast rest
          · exact agrees_directory last inside present
          · have straight : Straight system mount rule resolveLastLink place (.down name :: rest) ↔
                Straight system mount rule resolveLastLink (place ++ [name]) rest := by
              simp only [Straight, present, if_neg last, inside, not_false_eq_true, true_and]
            rw [follow_directory inside present] at outside ⊢
            rw [NameTree.walk_directory last present] at within ⊢
            rw [straight]
            exact ih enough present within outside
        | link absolute target =>
          have link : system.tree.IsLink (place ++ [name]) := ⟨absolute, target, present⟩
          cases landed : system.tree.landing system.links (place ++ [name]) with
          | none => exact agrees_broken_link inside link landed enough within
          | some goal =>
            by_cases last : rest = [] ∨ rule.TakesLast rest
            · exact agrees_last_link external inside enough link landed last within
            · obtain ⟨more, further⟩ := not_or.mp last
              refine agrees_link external inside link landed more further within ?_
              intro fewer less there walked
              rw [follow_landed inside link external (fun kept => more kept.2) landed] at outside
              exact ih (Nat.le_trans less enough) there (walked ▸ within) outside

end agrees

end GekkoFwd.Proofs.PathTransparency
