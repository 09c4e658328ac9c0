import GekkoFwd.Proofs.ResolverWalk

/-! The text of an internal path: when it is the one text of its place, and with it the one
key of its file. -/

namespace GekkoFwd.Proofs.CanonicalKeys
open Lib.NamingTree GekkoFwd.Path PathResolver PathText PathResolution ResolverWalk

/-- A text without a separator before the names of a place has to be a name. -/
theorem canonical_iff {name : Str} (plain : '/' ∉ name) {below : List Str} (valid : ∀ part ∈ below, IsName part) :
    Canonical ('/' :: (name ++ text below)) ↔ IsName name ∨ name = [] ∧ below = [] := by
  constructor
  · rintro ⟨names, all, whole⟩
    cases names with
    | nil =>
      have empty : name ++ text below = [] := (List.cons.inj whole).2
      obtain ⟨none, ended⟩ := List.append_eq_nil_iff.mp empty
      cases below with
      | nil => exact .inr ⟨none, rfl⟩
      | cons first below => simp [text_cons] at ended
    | cons first names =>
      rw [join_eq_text (by simp), text_cons] at whole
      have separated : ∀ place, Separated (text place) := fun place => by
        simpa using separated_text place separated_nil
      have here := (takeWhile_name plain (separated below)).1
      rw [(List.cons.inj whole).2, (takeWhile_name (all first List.mem_cons_self).plain (separated names)).1] at here
      exact .inl (here ▸ all first List.mem_cons_self)
  · rintro (isName | ⟨rfl, rfl⟩)
    · refine ⟨name :: below, List.forall_mem_cons.mpr ⟨isName, valid⟩, ?_⟩
      rw [join_eq_text (by simp), text_cons]
    · exact canonical_root

theorem conclusion_below {mount : List Str} (deeper : mount ≠ []) (below : List Str) (rooted : Bool) :
    conclusion mount (mount ++ below) rooted = some (true, if rooted then '/' :: text below else join below) := by
  cases rooted with
  | false =>
    rw [conclusion_eq deeper, answer, if_pos (List.prefix_append mount below), List.drop_left]
    rfl
  | true =>
    rw [conclusion, if_pos (List.prefix_append mount below), if_neg (by simp [lead]), join_eq_text deeper, text_append]
    simp [lead, Nat.add_comm 1]

theorem conclusion_outside {mount place : List Str} (outside : ¬ mount <+: place) (rooted : Bool) :
    ∃ resolved, conclusion mount place rooted = some (false, resolved) := by
  rw [conclusion, if_neg outside]
  exact ⟨_, rfl⟩

/-- With `/` as mount directory the first character of the first name is cut off. -/
theorem conclusion_top (name : Str) (below : List Str) (nonempty : name ≠ []) :
    conclusion [] (name :: below) false = some (true, '/' :: (name.drop 1 ++ text below)) := by
  obtain ⟨c, behind, rfl⟩ := List.exists_cons_of_ne_nil nonempty
  rw [conclusion, if_pos List.nil_prefix, text_cons]
  simp [lead, join]

theorem conclusion_root : conclusion [] [] false = none := by decide

/-- With `/` as mount directory no link is followed. -/
theorem follow_top {system : System} {resolveLastLink : Bool} {start place : List Str} {rooted : Bool} {components : List (Component Str)}
    (arrived : follow system [] resolveLastLink start false components = .arrived place rooted) : rooted = false := by
  induction components generalizing start with
  | nil =>
    cases arrived
    rfl
  | cons component components ih =>
    cases component with
    | here => exact ih arrived
    | slash => exact ih arrived
    | up => exact ih arrived
    | down name =>
      rw [follow, if_pos List.nil_prefix] at arrived
      exact ih arrived

/-- The way of a path that is resolved. -/
def Leads (system : System) (mount : List Str) (resolveLastLink : Bool) (path : Str) (place : List Str) (rooted : Bool) : Prop :=
  excluded path = false ∧ follow system mount resolveLastLink [] false (parts path) = .arrived place rooted

/-- What is left of the names is a name without its first character and all behind it, or
nothing at all. -/
def CutClean : List Str → Prop
  | [] => True
  | name :: below => IsName (name.drop 1) ∨ name.drop 1 = [] ∧ below = []

/-- There is no second separator behind the mount directory, or nothing behind it. With `/` as
mount directory it is the first character of the path that is cut off. -/
def Clean (mount place : List Str) (rooted : Bool) : Prop :=
  if mount = [] then CutClean place else rooted = false ∨ place = mount

section resolve
variable {system : System} (named : Named system) {mount : List Str} (mounted : ∀ name ∈ mount, IsName name) {resolveLastLink : Bool}
  {path : Str}
include named mounted

theorem resolve_of_leads (countable : Countable system path) {place : List Str} {rooted : Bool}
    (leads : Leads system mount resolveLastLink path place rooted) :
    resolve system (join mount) resolveLastLink path = conclusion mount place rooted ∧ ∀ name ∈ place, IsName name := by
  have ends := ends_resolve named mounted resolveLastLink leads.1 countable
  rw [leads.2] at ends
  generalize resolve system (join mount) resolveLastLink path = result at ends
  cases ends with
  | arrived _ valid => exact ⟨rfl, valid⟩

theorem leads_of_internal (countable : Countable system path) {resolved : Str}
    (answer : resolve system (join mount) resolveLastLink path = some (true, resolved)) :
    ∃ place rooted, Leads system mount resolveLastLink path place rooted ∧ mount <+: place := by
  have resolving := excluded_of_internal answer
  have ends := ends_resolve named mounted resolveLastLink resolving countable
  rw [answer] at ends
  obtain ⟨external, _⟩ | ⟨place, rooted, way, concluded⟩ := ends.of_some
  · cases external
  · refine ⟨place, rooted, ⟨resolving, way⟩, ?_⟩
    by_contra outside
    obtain ⟨external, elsewhere⟩ := conclusion_outside outside rooted
    cases concluded.symm.trans elsewhere

theorem canonical_iff_clean (countable : Countable system path) {place : List Str} {rooted : Bool}
    (leads : Leads system mount resolveLastLink path place rooted) (inside : mount <+: place) :
    (∀ resolved, resolve system (join mount) resolveLastLink path = some (true, resolved) → Canonical resolved) ↔
      Clean mount place rooted := by
  obtain ⟨resolves, valid⟩ := resolve_of_leads named mounted countable leads
  rw [resolves, Clean]
  by_cases top : mount = []
  · subst top
    obtain rfl := follow_top leads.2
    rw [if_pos rfl]
    cases place with
    | nil => simp [conclusion_root, CutClean]
    | cons name below =>
      obtain ⟨isName, others⟩ := List.forall_mem_cons.mp valid
      have plain : '/' ∉ name.drop 1 := fun member => isName.plain (List.mem_of_mem_drop member)
      rw [conclusion_top name below isName.nonempty]
      simpa [CutClean] using canonical_iff plain others
  · obtain ⟨below, rfl⟩ := inside
    have others : ∀ name ∈ below, IsName name := fun name member => valid name (List.mem_append_right _ member)
    rw [if_neg top, conclusion_below top]
    cases rooted with
    | false => simpa using ⟨below, others, rfl⟩
    | true =>
      have unnamed : ¬ IsName [] := fun isName => isName.nonempty rfl
      simpa [unnamed] using canonical_iff (List.not_mem_nil (a := '/')) others

theorem resolve_eq_of_clean (countable : Countable system path) {other : Str} (countableAlso : Countable system other)
    {otherLastLink : Bool} {place : List Str} {rooted again : Bool}
    (leads : Leads system mount resolveLastLink path place rooted) (also : Leads system mount otherLastLink other place again)
    (inside : mount <+: place) (clean : Clean mount place rooted) (cleanAlso : Clean mount place again) :
    resolve system (join mount) resolveLastLink path = resolve system (join mount) otherLastLink other := by
  rw [(resolve_of_leads named mounted countable leads).1, (resolve_of_leads named mounted countableAlso also).1]
  by_cases top : mount = []
  · subst top
    rw [follow_top leads.2, follow_top also.2]
  · obtain ⟨below, rfl⟩ := inside
    have whole : ∀ {rooted : Bool}, Clean mount (mount ++ below) rooted →
        conclusion mount (mount ++ below) rooted = some (true, join below) := by
      intro rooted clean
      rw [Clean, if_neg top] at clean
      rw [conclusion_below top]
      rcases clean with rfl | same
      · rfl
      · obtain rfl : below = [] := by simpa using same
        cases rooted <;> rfl
    rw [whole clean, whole cleanAlso]

end resolve

/-- Internal paths are canonical exactly where the way to them is clean, and clean ways to one
file give one key, as long as the counters of the resolver do not wrap. -/
theorem internal_paths_canonical_iff {system : System} (named : Named system) {mount : List Str} (mounted : ∀ name ∈ mount, IsName name)
    (resolveLastLink : Bool) {path : Str} (countable : Countable system path) :
    ((∀ resolved, resolve system (join mount) resolveLastLink path = some (true, resolved) → Canonical resolved) ↔
      ∀ place rooted, Leads system mount resolveLastLink path place rooted → mount <+: place → Clean mount place rooted) ∧
    ∀ (otherLastLink : Bool) (other : Str) (place : List Str) (rooted again : Bool), Countable system other →
      Leads system mount resolveLastLink path place rooted → Leads system mount otherLastLink other place again → mount <+: place →
      Clean mount place rooted → Clean mount place again →
      resolve system (join mount) resolveLastLink path = resolve system (join mount) otherLastLink other := by
  refine ⟨⟨?_, ?_⟩, ?_⟩
  · intro canonical place rooted leads inside
    exact (canonical_iff_clean named mounted countable leads inside).mp canonical
  · intro clean resolved answer
    obtain ⟨place, rooted, leads, inside⟩ := leads_of_internal named mounted countable answer
    exact (canonical_iff_clean named mounted countable leads inside).mpr (clean place rooted leads inside) resolved answer
  · intro otherLastLink other place rooted again countableAlso leads also inside
    exact resolve_eq_of_clean named mounted countable countableAlso leads also inside

/-- `/m` is the mount directory and `/a` a link to the root. -/
def rootLink : NameTree Str where
  lookup place :=
    if place = [] ∨ place = [['m']] then some .directory
    else if place = [['a']] then some (.link true [])
    else none
  root := rfl
  parent {place name node} present := by
    cases place with
    | nil => rfl
    | cons first place => simp at present

def rootLinkSystem : System := ⟨rootLink, 40⟩

theorem named_rootLink : Named rootLinkSystem := by
  intro place name node present
  by_cases known : name = ['m'] ∨ name = ['a']
  · rcases known with rfl | rfl <;> decide
  · rw [not_or] at known
    cases place <;> simp [rootLinkSystem, rootLink, known] at present

theorem countable_rootLink {path : Str} (short : (names path).length < 2 ^ 32) : Countable rootLinkSystem path := by
  refine ⟨short, fun {place target} link landed => ?_⟩
  obtain ⟨absolute, parts, link⟩ := link
  obtain rfl : place = [['a']] := by
    by_contra other
    simp only [rootLinkSystem, rootLink, other, if_false] at link
    split at link <;> cases link
  have leads : rootLinkSystem.tree.landing rootLinkSystem.links [['a']] = some [] := by decide
  rw [leads] at landed
  cases landed
  simpa using short

/-- The mount directory itself is named well through the link. -/
theorem internal_paths_canonical_iff_mount : rootLinkSystem.links = 40 ∧
    ∀ resolved, resolve rootLinkSystem (join [['m']]) true "/a/m/".toList = some (true, resolved) → Canonical resolved := by
  refine ⟨rfl, (internal_paths_canonical_iff named_rootLink (by decide) true (countable_rootLink (by decide))).1.mpr ?_⟩
  intro place rooted leads _
  have arrived : follow rootLinkSystem [['m']] true [] false (parts "/a/m/".toList) = .arrived [['m']] true := by decide
  cases leads.2.symm.trans arrived
  exact .inr rfl

/-- Below the mount directory the same file has another key through the link. -/
theorem doubled_key : resolve rootLinkSystem "/m".toList true "/a/m/x".toList = some (true, "//x".toList) ∧
    ¬ Canonical "//x".toList ∧ resolve rootLinkSystem "/m".toList true "/m/x".toList = some (true, "/x".toList) :=
  ⟨by decide, (canonical_iff (List.not_mem_nil (a := '/')) (by decide : ∀ part ∈ [['x']], IsName part)).not.mpr (by decide), by decide⟩

end GekkoFwd.Proofs.CanonicalKeys
