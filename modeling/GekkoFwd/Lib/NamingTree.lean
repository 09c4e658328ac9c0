import Mathlib.Data.List.Induction

/-! Directory trees with symbolic links and the walk of a path through them. An object is
known by its place, the names that lead to it from the root without a link. -/

namespace GekkoFwd.Lib.NamingTree

/-- A component of a path. A slash at the end of a path is a component of its own. -/
inductive Component (ν : Type) where
  | here
  | up
  | slash
  | down (name : ν)
  deriving DecidableEq

inductive Node (ν : Type) where
  | file
  | directory
  | link (absolute : Bool) (target : List (Component ν))
  deriving DecidableEq

structure NameTree (ν : Type) where
  lookup : List ν → Option (Node ν)
  root : lookup [] = some .directory
  parent : ∀ {place : List ν} {name : ν} {node : Node ν}, lookup (place ++ [name]) = some node → lookup place = some .directory

/-- What a call takes the last component of its path for. -/
inductive LastLink where
  | follow
  /-- It takes a link itself, unless a slash comes after it. -/
  | keep
  /-- It takes the entry in a directory. Some calls also tell a directory with a slash after it
  from one without. -/
  | entry (tellsSlash : Bool)
  deriving DecidableEq

inductive Target (ν : Type) where
  | existing (place : List ν)
  | missing (directory : List ν) (name : ν)
  deriving DecidableEq

/-- The last component of a path to an entry. -/
inductive Last (ν : Type) where
  | root
  | dot
  | dotDot
  | name (name : ν) (slash : Bool)
  deriving DecidableEq

inductive Refusal where
  | notFound
  | notDirectory
  deriving DecidableEq

inductive Walked (ν : Type) where
  | target (found : Target ν)
  | entry (directory : List ν) (last : Last ν)
  /-- There is a slash after a name that is missing or names a file. -/
  | slashed (directory : List ν) (name : ν)
  | refused (refusal : Refusal)
  | tooManyLinks
  deriving DecidableEq

/-- The walk ends with an object, or with a name that can be made or taken. -/
def Walked.Succeeds {ν : Type} : Walked ν → Prop
  | .target _ => True
  | .entry .. => True
  | _ => False

/-- Nothing is left but slashes. -/
def Ended {ν : Type} (rest : List (Component ν)) : Prop := ∀ component ∈ rest, component = .slash

instance {ν : Type} [DecidableEq ν] (rest : List (Component ν)) : Decidable (Ended rest) :=
  inferInstanceAs (Decidable (∀ component ∈ rest, component = .slash))

theorem ended_nil {ν : Type} : Ended ([] : List (Component ν)) := by simp [Ended]

theorem ne_nil_of_not_ended {ν : Type} {rest : List (Component ν)} (further : ¬ Ended rest) : rest ≠ [] := by
  rintro rfl
  exact further ended_nil

theorem not_ended_down {ν : Type} (name : ν) (rest : List (Component ν)) : ¬ Ended (.down name :: rest) :=
  fun ended => nomatch ended _ List.mem_cons_self

namespace LastLink

def isEntry : LastLink → Bool
  | .entry _ => true
  | _ => false

/-- The component before the rest is the last one of a path to an entry. -/
def TakesLast {ν : Type} (rule : LastLink) (rest : List (Component ν)) : Prop := rule.isEntry = true ∧ Ended rest

instance {ν : Type} [DecidableEq ν] (rule : LastLink) (rest : List (Component ν)) : Decidable (rule.TakesLast rest) :=
  inferInstanceAs (Decidable (_ ∧ _))

/-- The call tells whether a slash comes after this entry. -/
def tells {ν : Type} : LastLink → Option (Node ν) → Bool
  | .entry tellsSlash, some .directory => tellsSlash
  | _, _ => true

/-- A path without components. -/
def atStart {ν : Type} (rule : LastLink) (place : List ν) : Walked ν :=
  if rule.isEntry then .entry place .root else .target (.existing place)

section
variable {ν : Type} {rule : LastLink} {rest : List (Component ν)}

@[simp] theorem not_takesLast_follow : ¬ LastLink.follow.TakesLast rest := fun takes => nomatch takes.1

@[simp] theorem not_takesLast_keep : ¬ LastLink.keep.TakesLast rest := fun takes => nomatch takes.1

theorem not_takesLast_of_object (object : rule.isEntry = false) : ¬ rule.TakesLast rest :=
  fun takes => Bool.false_ne_true (object.symm.trans takes.1)

theorem not_takesLast_of_not_ended (further : ¬ Ended rest) : ¬ rule.TakesLast rest := fun takes => further takes.2

theorem not_takesLast_append (further : ¬ rule.TakesLast rest) (first : List (Component ν)) : ¬ rule.TakesLast (first ++ rest) :=
  fun takes => further ⟨takes.1, fun component member => takes.2 component (List.mem_append_right _ member)⟩

end

end LastLink

/-- The names of a place as components. -/
def route {ν : Type} (place : List ν) : List (Component ν) := place.map .down

namespace NameTree

variable {ν : Type}

theorem lookup_above {tree : NameTree ν} {above below : List ν} {node : Node ν} (present : tree.lookup (above ++ below) = some node)
    (deeper : below ≠ []) : tree.lookup above = some .directory := by
  induction below using List.reverseRecOn generalizing node with
  | nil => exact absurd rfl deeper
  | append_singleton init last ih =>
    rw [← List.append_assoc] at present
    by_cases top : init = []
    · simpa [top] using tree.parent present
    · exact ih (tree.parent present) top

theorem lookup_dropLast {tree : NameTree ν} {place : List ν} {node : Node ν} (present : tree.lookup place = some node) :
    tree.lookup place.dropLast = some .directory := by
  rcases List.eq_nil_or_concat place with rfl | ⟨init, last, rfl⟩
  · exact tree.root
  · rw [List.concat_eq_append] at present ⊢
    rw [List.dropLast_concat]
    exact tree.parent present

/-- The first place that a link sends a walk to. -/
def restart (absolute : Bool) (place : List ν) : List ν := if absolute then [] else place

theorem lookup_restart {tree : NameTree ν} {place : List ν} (absolute : Bool) (start : tree.lookup place = some .directory) :
    tree.lookup (restart absolute place) = some .directory := by
  cases absolute
  · exact start
  · exact tree.root

def IsLink (tree : NameTree ν) (place : List ν) : Prop := ∃ absolute target, tree.lookup place = some (.link absolute target)

/-- A walk that follows every link and finds something, step by step. -/
inductive Finds (tree : NameTree ν) : Nat → List ν → List (Component ν) → Target ν → Prop
  | arrived (links : Nat) (place : List ν) : Finds tree links place [] (.existing place)
  | here {links : Nat} {place : List ν} {rest : List (Component ν)} {found : Target ν} :
      Finds tree links place rest found → Finds tree links place (.here :: rest) found
  | slash {links : Nat} {place : List ν} {rest : List (Component ν)} {found : Target ν} :
      Finds tree links place rest found → Finds tree links place (.slash :: rest) found
  | up {links : Nat} {place : List ν} {rest : List (Component ν)} {found : Target ν} :
      Finds tree links place.dropLast rest found → Finds tree links place (.up :: rest) found
  | missing (links : Nat) {place : List ν} {name : ν} :
      tree.lookup (place ++ [name]) = none → Finds tree links place [.down name] (.missing place name)
  | directory {links : Nat} {place : List ν} {name : ν} {rest : List (Component ν)} {found : Target ν} :
      tree.lookup (place ++ [name]) = some .directory →
      Finds tree links (place ++ [name]) rest found → Finds tree links place (.down name :: rest) found
  | file (links : Nat) {place : List ν} {name : ν} :
      tree.lookup (place ++ [name]) = some .file → Finds tree links place [.down name] (.existing (place ++ [name]))
  | link {links : Nat} {place : List ν} {name : ν} {rest : List (Component ν)} {found : Target ν}
      {absolute : Bool} {target : List (Component ν)} :
      tree.lookup (place ++ [name]) = some (.link absolute target) →
      Finds tree links (restart absolute place) (target ++ rest) found →
      Finds tree (links + 1) place (.down name :: rest) found

section finds
variable {tree : NameTree ν} {links : Nat} {place : List ν} {rest : List (Component ν)} {found : Target ν} {parts : List (Component ν)}

/-- What is found behind the first part of a path lies behind an object that the first part
leads to. -/
theorem Finds.first {first : List (Component ν)} (finds : Finds tree links place parts found) (whole : parts = first ++ rest)
    (further : rest ≠ []) : ∃ middle, Finds tree links place first (.existing middle) := by
  -- Until the first part is used up, the two walks take the same steps.
  induction finds generalizing first with
  | arrived links place => exact absurd (List.append_eq_nil_iff.mp whole.symm).2 further
  | @here links place _ found behind ih =>
    rcases List.cons_eq_append_iff.mp whole with ⟨rfl, same⟩ | ⟨first, rfl, rfl⟩
    · exact ⟨place, .arrived links place⟩
    · exact (ih rfl).imp fun middle leads => .here leads
  | @slash links place _ found behind ih =>
    rcases List.cons_eq_append_iff.mp whole with ⟨rfl, same⟩ | ⟨first, rfl, rfl⟩
    · exact ⟨place, .arrived links place⟩
    · exact (ih rfl).imp fun middle leads => .slash leads
  | @up links place _ found behind ih =>
    rcases List.cons_eq_append_iff.mp whole with ⟨rfl, same⟩ | ⟨first, rfl, rfl⟩
    · exact ⟨place, .arrived links place⟩
    · exact (ih rfl).imp fun middle leads => .up leads
  | @missing links place name absent =>
    rcases List.cons_eq_append_iff.mp whole with ⟨rfl, rfl⟩ | ⟨first, rfl, empty⟩
    · exact ⟨place, .arrived links place⟩
    · exact absurd (List.append_eq_nil_iff.mp empty.symm).2 further
  | @file links place name present =>
    rcases List.cons_eq_append_iff.mp whole with ⟨rfl, rfl⟩ | ⟨first, rfl, empty⟩
    · exact ⟨place, .arrived links place⟩
    · exact absurd (List.append_eq_nil_iff.mp empty.symm).2 further
  | @directory links place name _ found present behind ih =>
    rcases List.cons_eq_append_iff.mp whole with ⟨rfl, rfl⟩ | ⟨first, rfl, rfl⟩
    · exact ⟨place, .arrived links place⟩
    · exact (ih rfl).imp fun middle leads => .directory present leads
  | @link links place name _ found absolute target present behind ih =>
    rcases List.cons_eq_append_iff.mp whole with ⟨rfl, rfl⟩ | ⟨first, rfl, rfl⟩
    · exact ⟨place, .arrived _ place⟩
    · exact (ih (List.append_assoc target first _).symm).imp fun middle leads => .link present leads

/-- What a walk that follows every link finds is no link. -/
theorem Finds.existing (finds : Finds tree links place parts found) (start : tree.lookup place = some .directory) {object : List ν}
    (same : found = .existing object) : tree.lookup object = some .directory ∨ tree.lookup object = some .file := by
  induction finds with
  | arrived links place =>
    cases same
    exact .inl start
  | here _ ih => exact ih start same
  | slash _ ih => exact ih start same
  | up _ ih => exact ih (lookup_dropLast start) same
  | missing _ _ => cases same
  | directory present _ ih => exact ih present same
  | file _ present =>
    cases same
    exact .inr present
  | link _ _ ih => exact ih (lookup_restart _ start) same

end finds

variable [DecidableEq ν] (tree : NameTree ν)

/-- A walk that leaves the path behind a link to `jump`. -/
def walkWith (rule : LastLink) (jump : List ν → List (Component ν) → Walked ν) : List ν → List (Component ν) → Walked ν
  | place, [] => rule.atStart place
  | place, .here :: rest => if rule.TakesLast rest then .entry place .dot else walkWith rule jump place rest
  | place, .slash :: rest => walkWith rule jump place rest
  | place, .up :: rest => if rule.TakesLast rest then .entry place .dotDot else walkWith rule jump place.dropLast rest
  | place, .down name :: rest =>
    if rule.TakesLast rest then .entry place (.name name (!rest.isEmpty && rule.tells (tree.lookup (place ++ [name]))))
    else match tree.lookup (place ++ [name]) with
      | none =>
        if rest = [] then .target (.missing place name)
        else if Ended rest then .slashed place name
        else .refused .notFound
      | some .directory => walkWith rule jump (place ++ [name]) rest
      | some .file =>
        if rest = [] then .target (.existing (place ++ [name]))
        else if Ended rest then .slashed place name
        else .refused .notDirectory
      | some (.link absolute target) =>
        if rest = [] ∧ rule = .keep then .target (.existing (place ++ [name]))
        else jump (restart absolute place) (target ++ rest)

/-- The walk of a path from a directory, with at most `links` links on the way. -/
def walk (rule : LastLink) : Nat → List ν → List (Component ν) → Walked ν
  | 0 => tree.walkWith rule fun _ _ => .tooManyLinks
  | links + 1 => tree.walkWith rule (walk rule links)

/-- Where the place leads once its links are followed. -/
def landing (links : Nat) (place : List ν) : Option (List ν) :=
  match tree.walk .follow links [] (route place) with
  | .target (.existing place) => some place
  | _ => none

variable {tree} {rule : LastLink} {links : Nat} {place : List ν} {name : ν} {rest : List (Component ν)}

theorem walk_of_landing {target : List ν} (landed : tree.landing links place = some target) :
    tree.walk .follow links [] (route place) = .target (.existing target) := by
  rw [landing] at landed
  split at landed
  next found walked =>
    cases landed
    exact walked
  next => cases landed

theorem walk_nil : tree.walk rule links place [] = rule.atStart place := by
  cases links <;> rfl

theorem walk_slash : tree.walk rule links place (.slash :: rest) = tree.walk rule links place rest := by
  cases links <;> rfl

section further
variable (further : ¬ rule.TakesLast rest)
include further

theorem walk_here : tree.walk rule links place (.here :: rest) = tree.walk rule links place rest := by
  cases links <;> exact if_neg further

theorem walk_up : tree.walk rule links place (.up :: rest) = tree.walk rule links place.dropLast rest := by
  cases links <;> exact if_neg further

theorem walk_missing (absent : tree.lookup (place ++ [name]) = none) :
    tree.walk rule links place (.down name :: rest) =
      if rest = [] then .target (.missing place name)
      else if Ended rest then .slashed place name
      else .refused .notFound := by
  cases links <;> simp only [walk, walkWith, if_neg further, absent]

theorem walk_directory (directory : tree.lookup (place ++ [name]) = some .directory) :
    tree.walk rule links place (.down name :: rest) = tree.walk rule links (place ++ [name]) rest := by
  cases links <;> simp only [walk, walkWith, if_neg further, directory]

theorem walk_file (file : tree.lookup (place ++ [name]) = some .file) :
    tree.walk rule links place (.down name :: rest) =
      if rest = [] then .target (.existing (place ++ [name]))
      else if Ended rest then .slashed place name
      else .refused .notDirectory := by
  cases links <;> simp only [walk, walkWith, if_neg further, file]

section link
variable {absolute : Bool} {target : List (Component ν)} (link : tree.lookup (place ++ [name]) = some (.link absolute target))
  (followed : ¬ (rest = [] ∧ rule = .keep))
include link followed

theorem walk_link :
    tree.walk rule (links + 1) place (.down name :: rest) = tree.walk rule links (restart absolute place) (target ++ rest) := by
  simp only [walk, walkWith, if_neg further, link, if_neg followed]

theorem walk_link_none : tree.walk rule 0 place (.down name :: rest) = .tooManyLinks := by
  simp only [walk, walkWith, if_neg further, link, if_neg followed]

/-- A walk that does not give up goes on behind every link that it follows. -/
theorem exists_walk_link (within : tree.walk rule links place (.down name :: rest) ≠ .tooManyLinks) :
    ∃ fewer, links = fewer + 1 ∧
      tree.walk rule links place (.down name :: rest) = tree.walk rule fewer (restart absolute place) (target ++ rest) := by
  cases links with
  | zero => exact absurd (walk_link_none further link followed) within
  | succ fewer => exact ⟨fewer, rfl, walk_link further link followed⟩

end link

/-- The way to a directory by its names. -/
theorem walk_route (names : List ν) (directory : tree.lookup (place ++ names) = some .directory) :
    tree.walk rule links place (route names ++ rest) = tree.walk rule links (place ++ names) rest := by
  induction names generalizing place with
  | nil => simp [route]
  | cons name names ih =>
    have grouped : place ++ name :: names = place ++ [name] ++ names := by simp
    rw [grouped] at directory ⊢
    have first : tree.lookup (place ++ [name]) = some .directory := by
      by_cases last : names = []
      · simpa [last] using directory
      · exact lookup_above directory last
    exact (walk_directory (LastLink.not_takesLast_append further (route names)) first).trans (ih directory)

theorem walk_from_root (directory : tree.lookup place = some .directory) :
    tree.walk rule links [] (route place ++ rest) = tree.walk rule links place rest :=
  walk_route further place (by simpa using directory)

end further

section last
variable (last : rule.TakesLast rest)
include last

theorem walk_dot : tree.walk rule links place (.here :: rest) = .entry place .dot := by
  cases links <;> exact if_pos last

theorem walk_dotDot : tree.walk rule links place (.up :: rest) = .entry place .dotDot := by
  cases links <;> exact if_pos last

theorem walk_entry : tree.walk rule links place (.down name :: rest) =
    .entry place (.name name (!rest.isEmpty && rule.tells (tree.lookup (place ++ [name])))) := by
  cases links <;> exact if_pos last

end last

theorem walk_kept {absolute : Bool} {target : List (Component ν)}
    (link : tree.lookup (place ++ [name]) = some (.link absolute target)) :
    tree.walk .keep links place [.down name] = .target (.existing (place ++ [name])) := by
  cases links <;> simp [walk, walkWith, link]

/-- Nothing is found below a file. -/
theorem walk_below_file (file : tree.lookup place = some .file) (further : ¬ Ended rest) :
    tree.walk rule links [] (route place ++ rest) = .refused .notDirectory := by
  rcases List.eq_nil_or_concat place with rfl | ⟨init, last, rfl⟩
  · rw [tree.root] at file
    cases file
  · rw [List.concat_eq_append] at file ⊢
    have split : route (init ++ [last]) ++ rest = route init ++ .down last :: rest := by simp [route]
    rw [split, walk_from_root (LastLink.not_takesLast_of_not_ended (not_ended_down last rest)) (tree.parent file),
      walk_file (LastLink.not_takesLast_of_not_ended further) file, if_neg (ne_nil_of_not_ended further), if_neg further]

theorem finds_of_walk {found : Target ν} {parts : List (Component ν)} (walked : tree.walk .follow links place parts = .target found) :
    Finds tree links place parts found := by
  induction links using Nat.strongRecOn generalizing place parts with
  | _ links behind =>
    induction parts generalizing place with
    | nil =>
      rw [walk_nil] at walked
      cases walked
      exact .arrived links place
    | cons part rest ih =>
      have further : ¬ LastLink.follow.TakesLast rest := LastLink.not_takesLast_follow
      cases part with
      | here => exact .here (ih ((walk_here further).symm.trans walked))
      | slash => exact .slash (ih (walk_slash.symm.trans walked))
      | up => exact .up (ih ((walk_up further).symm.trans walked))
      | down name =>
        cases present : tree.lookup (place ++ [name]) with
        | none =>
          rw [walk_missing further present] at walked
          split at walked
          next last =>
            cases walked
            subst last
            exact .missing links present
          next => split at walked <;> cases walked
        | some node =>
          cases node with
          | directory => exact .directory present (ih ((walk_directory further present).symm.trans walked))
          | file =>
            rw [walk_file further present] at walked
            split at walked
            next last =>
              cases walked
              subst last
              exact .file links present
            next => split at walked <;> cases walked
          | link absolute target =>
            have within : tree.walk .follow links place (.down name :: rest) ≠ .tooManyLinks := by simp [walked]
            obtain ⟨fewer, rfl, goes⟩ := exists_walk_link further present (by simp) within
            exact .link present (behind fewer (Nat.lt_succ_self fewer) (goes.symm.trans walked))

/-- A walk that finds something finds it with more links allowed. -/
theorem Finds.walk {found : Target ν} {parts : List (Component ν)} (finds : Finds tree links place parts found)
    {more : Nat} (enough : links ≤ more) : tree.walk .follow more place parts = .target found := by
  induction finds generalizing more with
  | arrived => exact walk_nil
  | here _ ih => exact (walk_here (by simp)).trans (ih enough)
  | slash _ ih => exact walk_slash.trans (ih enough)
  | up _ ih => exact (walk_up (by simp)).trans (ih enough)
  | missing _ absent => exact walk_missing (by simp) absent
  | directory present _ ih => exact (walk_directory (by simp) present).trans (ih enough)
  | file _ present => exact walk_file (by simp) present
  | link present _ ih =>
    obtain ⟨fewer, rfl⟩ : ∃ fewer, more = fewer + 1 := ⟨more - 1, by omega⟩
    rw [walk_link (by simp) present (by simp)]
    exact ih (by omega)

/-- How a walk goes on from what the first part of its path leads to. -/
inductive GoesOn (tree : NameTree ν) (rule : LastLink) (links : Nat) (middle : List ν) (rest : List (Component ν)) : Walked ν → Prop
  | directory {fewer : Nat} : tree.lookup middle = some .directory → fewer ≤ links →
      GoesOn tree rule links middle rest (tree.walk rule fewer middle rest)
  | slashed {directory : List ν} {name : ν} : tree.lookup middle = some .file → Ended rest →
      GoesOn tree rule links middle rest (.slashed directory name)
  | refused : tree.lookup middle = some .file → ¬ Ended rest → GoesOn tree rule links middle rest (.refused .notDirectory)

theorem GoesOn.more {middle : List ν} {result : Walked ν} (goesOn : GoesOn tree rule links middle rest result) {more : Nat}
    (enough : links ≤ more) : GoesOn tree rule more middle rest result := by
  cases goesOn with
  | directory present fewer => exact .directory present (Nat.le_trans fewer enough)
  | slashed present ended => exact .slashed present ended
  | refused present further => exact .refused present further

/-- A walk behind the first part of a path goes on from what the first part leads to. -/
theorem Finds.goesOn {first : List (Component ν)} {found : Target ν} {fewer : Nat} (finds : Finds tree links place first found)
    (start : tree.lookup place = some .directory) {middle : List ν} (same : found = .existing middle) (more : rest ≠ [])
    (further : ¬ rule.TakesLast rest) (within : tree.walk rule fewer place (first ++ rest) ≠ .tooManyLinks) :
    GoesOn tree rule fewer middle rest (tree.walk rule fewer place (first ++ rest)) := by
  induction finds generalizing fewer with
  | arrived links place =>
    cases same
    exact .directory start (Nat.le_refl fewer)
  | @here _ _ behind _ _ ih =>
    rw [List.cons_append, walk_here (LastLink.not_takesLast_append further behind)] at within ⊢
    exact ih start same within
  | slash _ ih =>
    rw [List.cons_append, walk_slash] at within ⊢
    exact ih start same within
  | @up _ _ behind _ _ ih =>
    rw [List.cons_append, walk_up (LastLink.not_takesLast_append further behind)] at within ⊢
    exact ih (lookup_dropLast start) same within
  | missing _ _ => cases same
  | @directory _ _ _ behind _ present _ ih =>
    rw [List.cons_append, walk_directory (LastLink.not_takesLast_append further behind) present] at within ⊢
    exact ih present same within
  | file _ present =>
    cases same
    rw [List.singleton_append, walk_file further present, if_neg more]
    split
    next ended => exact .slashed present ended
    next unended => exact .refused present unended
  | @link _ _ _ behind _ absolute target present _ ih =>
    have followed : ¬ (behind ++ rest = [] ∧ rule = .keep) := fun kept => more (List.append_eq_nil_iff.mp kept.1).2
    obtain ⟨left, rfl, step⟩ := exists_walk_link (LastLink.not_takesLast_append further behind) present followed within
    rw [List.cons_append, step, ← List.append_assoc] at within ⊢
    exact (ih (lookup_restart absolute start) same within).more (Nat.le_succ left)

/-- Jumps that only go further where the others give up. -/
theorem walkWith_more {jump longer : List ν → List (Component ν) → Walked ν}
    (agree : ∀ place parts, jump place parts ≠ .tooManyLinks → longer place parts = jump place parts) {parts : List (Component ν)}
    (within : tree.walkWith rule jump place parts ≠ .tooManyLinks) :
    tree.walkWith rule longer place parts = tree.walkWith rule jump place parts := by
  induction parts generalizing place with
  | nil => rfl
  | cons part rest ih =>
    by_cases last : rule.TakesLast rest
    · cases part with
      | slash => exact ih within
      | here => simp only [walkWith, if_pos last]
      | up => simp only [walkWith, if_pos last]
      | down name => simp only [walkWith, if_pos last]
    · cases part with
      | slash => exact ih within
      | here =>
        simp only [walkWith, if_neg last] at within ⊢
        exact ih within
      | up =>
        simp only [walkWith, if_neg last] at within ⊢
        exact ih within
      | down name =>
        cases present : tree.lookup (place ++ [name]) with
        | none => simp only [walkWith, if_neg last, present]
        | some node =>
          cases node with
          | file => simp only [walkWith, if_neg last, present]
          | directory =>
            simp only [walkWith, if_neg last, present] at within ⊢
            exact ih within
          | link absolute target =>
            simp only [walkWith, if_neg last, present] at within ⊢
            by_cases kept : rest = [] ∧ rule = .keep
            · rw [if_pos kept, if_pos kept]
            · rw [if_neg kept] at within ⊢
              rw [agree _ _ within, if_neg kept]

/-- A walk that does not give up ends the same with more links allowed. -/
theorem walk_more {more : Nat} (enough : links ≤ more) {parts : List (Component ν)}
    (within : tree.walk rule links place parts ≠ .tooManyLinks) : tree.walk rule more place parts = tree.walk rule links place parts := by
  induction links generalizing more place parts with
  | zero =>
    cases more with
    | zero => rfl
    | succ more => exact walkWith_more (fun _ _ gaveUp => absurd rfl gaveUp) within
  | succ links ih =>
    obtain ⟨more, rfl⟩ : ∃ fewer, more = fewer + 1 := ⟨more - 1, by omega⟩
    exact walkWith_more (fun _ _ within => ih (Nat.le_of_succ_le_succ enough) within) within

end NameTree

end GekkoFwd.Lib.NamingTree
