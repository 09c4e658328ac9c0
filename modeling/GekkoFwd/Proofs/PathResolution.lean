import GekkoFwd.Proofs.ComponentMatch

/-! The resolver's counters and its text against the place that they stand for, and the
resolver as lexical normalisation where there are no links. -/

namespace GekkoFwd.Proofs.PathResolution
open Lib.NamingTree GekkoFwd.Path PathResolver PathText ComponentMatch

/-- The components of a place that count as matched: all of them below the mount
directory, and before it those shared with it. -/
def matchedCount (mount place : List Str) : Nat := if mount <+: place then place.length else shared place mount

theorem length_le_matchedCount {mount place : List Str} : mount.length ≤ matchedCount mount place ↔ mount <+: place := by
  rw [matchedCount]
  split
  · next inside => exact ⟨fun _ => inside, fun _ => inside.length_le⟩
  · next outside =>
    have bound := shared_le_length place mount
    refine ⟨fun all => ?_, fun inside => absurd inside outside⟩
    exact (shared_eq_length_iff place mount).mp (by omega)

theorem matchedCount_nil (mount : List Str) : matchedCount mount [] = 0 := by
  rw [matchedCount, shared_nil]
  simp

theorem matchedCount_inside {mount place : List Str} (inside : mount <+: place) (name : Str) :
    matchedCount mount (place ++ [name]) = matchedCount mount place + 1 := by
  have below : mount <+: place ++ [name] := inside.trans (List.prefix_append place [name])
  rw [matchedCount, matchedCount, if_pos inside, if_pos below, List.length_append, List.length_singleton]

theorem matchedCount_outside {mount place : List Str} (outside : ¬ mount <+: place) (name : Str) :
    matchedCount mount (place ++ [name]) =
      if matchedCount mount place = place.length ∧ mount[matchedCount mount place]? = some name then matchedCount mount place + 1
      else matchedCount mount place := by
  have step := shared_concat place mount name
  have before : matchedCount mount place = shared place mount := by rw [matchedCount, if_neg outside]
  rw [before, ← step, matchedCount]
  split
  · next arrived =>
    -- Only the mount directory itself is new below the mount directory.
    rcases List.prefix_concat_iff.mp arrived with same | inside
    · rw [(shared_eq_length_iff (place ++ [name]) mount).mpr arrived, same]
    · exact absurd inside outside
  · rfl

theorem matchedCount_dropLast (mount place : List Str) :
    matchedCount mount place.dropLast =
      if 0 < place.length ∧ matchedCount mount place = place.length then matchedCount mount place - 1
      else matchedCount mount place := by
  have cut := shared_dropLast place mount
  have bound := shared_le place mount
  have length : place.dropLast.length = place.length - 1 := List.length_dropLast
  by_cases inside : mount <+: place
  · have count : matchedCount mount place = place.length := if_pos inside
    rw [count, matchedCount]
    split
    · split <;> omega
    · next outside =>
      have longer : place.dropLast.length < mount.length := by
        by_contra shorter
        exact outside (List.prefix_of_prefix_length_le inside (List.dropLast_prefix place) (by omega))
      have all := (shared_eq_length_iff place mount).mpr inside
      have within := inside.length_le
      rw [cut, all]
      split <;> omega
  · have above : ¬ mount <+: place.dropLast := fun inside' => inside (inside'.trans (List.dropLast_prefix place))
    rw [matchedCount, matchedCount, if_neg above, if_neg inside, cut]
    split <;> omega

theorem matchedCount_le (mount place : List Str) : matchedCount mount place ≤ place.length := by
  rw [matchedCount]
  split
  next => exact Nat.le_refl _
  next => exact shared_le place mount

theorem findLastSeparator_append (before : Str) {name : Str} (plain : '/' ∉ name) :
    findLastSeparator (before ++ '/' :: name) = before.length := by
  have stops : ∀ c ∈ name.reverse, (c != '/') = true := by
    intro c member
    have other : c ≠ '/' := fun same => plain (same ▸ List.mem_reverse.mp member)
    simpa using other
  have behind : (before ++ '/' :: name).reverse.takeWhile (· != '/') = name.reverse := by
    rw [List.reverse_append, List.reverse_cons, List.append_assoc, List.takeWhile_append_of_pos stops]
    simp
  rw [findLastSeparator, if_pos (by simp), behind]
  simp only [List.length_append, List.length_cons, List.length_reverse]
  omega

theorem eraseFrom_append (before behind : Str) : eraseFrom (before ++ behind) before.length = some before := by
  rw [eraseFrom, if_pos (by simp), List.take_left]

/-- The text of the resolver has a second separator at its start behind a link to the root. -/
def lead (rooted : Bool) : Str := if rooted then ['/'] else []

theorem lead_cases (rooted : Bool) : lead rooted = [] ∨ lead rooted = ['/'] := by
  cases rooted
  · exact .inl rfl
  · exact .inr rfl

/-- The locals of the resolver for a place. -/
structure Locals (mount : List Str) (cursor : Cursor) (place : List Str) (rooted : Bool) : Prop where
  matched : cursor.matchedComponents.toNat = matchedCount mount place
  total : cursor.resolvedComponents.toNat = place.length
  text : cursor.resolved = lead rooted ++ text place
  slash : cursor.resolved ≠ [] → cursor.lastSlashPos = findLastSeparator cursor.resolved

theorem locals_root (mount : List Str) : Locals mount ⟨[], 0, 0, 0⟩ [] false :=
  ⟨(matchedCount_nil mount).symm, rfl, rfl, fun some_text => absurd rfl some_text⟩

section locals
variable {mount : List Str} {cursor : Cursor} {place : List Str} {rooted : Bool}

theorem Locals.counters_eq (locals : Locals mount cursor place rooted) :
    cursor.matchedComponents = cursor.resolvedComponents ↔ matchedCount mount place = place.length := by
  rw [← locals.matched, ← locals.total, BitVec.toNat_inj]

/-- The text is cut at its last separator, which is where the loop remembers it. -/
theorem Locals.eraseLast (locals : Locals mount cursor place rooted) (valid : ∀ name ∈ place, IsName name) :
    ∃ slash, cursor.eraseLast =
        some { cursor with resolved := lead (rooted && !place.isEmpty) ++ PathText.text place.dropLast, lastSlashPos := slash } ∧
      (lead (rooted && !place.isEmpty) ++ PathText.text place.dropLast ≠ [] →
        slash = findLastSeparator (lead (rooted && !place.isEmpty) ++ PathText.text place.dropLast)) := by
  obtain ⟨resolved, matched, total, last⟩ := cursor
  obtain ⟨-, -, rfl, slash⟩ := locals
  rcases List.eq_nil_or_concat place with rfl | ⟨init, name, rfl⟩
  · cases rooted with
    | false => exact ⟨last, rfl, fun some_text => absurd rfl some_text⟩
    | true =>
      obtain rfl : last = 0 := slash (by simp [lead])
      exact ⟨npos, rfl, fun some_text => absurd rfl some_text⟩
  · rw [List.concat_eq_append] at slash valid ⊢
    have whole : lead rooted ++ PathText.text (init ++ [name]) = (lead rooted ++ PathText.text init) ++ '/' :: name := by
      rw [text_concat, List.append_assoc]
    have deeper : (init ++ [name]).isEmpty = false := List.isEmpty_eq_false_iff.mpr (by simp)
    have found : last = (lead rooted ++ PathText.text init).length := by
      have found := slash (by simp [whole])
      simp only [whole] at found
      rw [found, findLastSeparator_append _ (valid name (by simp)).plain]
    refine ⟨_, ?_, fun _ => rfl⟩
    rw [Cursor.eraseLast, if_neg (by simp [whole]), List.dropLast_concat, deeper, Bool.not_false, Bool.and_true]
    simp only [whole, found, eraseFrom_append, Option.map_some]

theorem Locals.rollback (locals : Locals mount cursor place rooted) (valid : ∀ name ∈ place, IsName name) :
    ∃ next, cursor.rollback = some next ∧ Locals mount next place.dropLast (rooted && !place.isEmpty) := by
  obtain ⟨slash, erased, last⟩ := locals.eraseLast valid
  have counted := locals.counters_eq
  have matched := locals.matched
  have total := locals.total
  have most := matchedCount_le mount place
  refine ⟨_, by rw [Cursor.rollback, erased]; rfl, ?_⟩
  by_cases top : 0 < cursor.resolvedComponents
  · have positive : 0 < place.length := total ▸ BitVec.lt_def.mp top
    simp only [Cursor.countDown, if_pos top]
    refine ⟨?_, ?_, rfl, last⟩
    · simp only [counted, matchedCount_dropLast, positive, true_and]
      split
      next all =>
        have one : 1#32 ≤ cursor.matchedComponents := by
          rw [BitVec.le_def, matched, all]
          exact positive
        rw [← matched]
        exact BitVec.toNat_sub_of_le one
      next => exact matched
    · have one : 1#32 ≤ cursor.resolvedComponents := by
        rw [BitVec.le_def, total]
        exact positive
      rw [List.length_dropLast, ← total]
      exact BitVec.toNat_sub_of_le one
  · obtain rfl : place = [] := by
      refine List.eq_nil_of_length_eq_zero (Nat.eq_zero_of_not_pos fun positive => top ?_)
      rw [BitVec.lt_def, total]
      exact positive
    simp only [Cursor.countDown, if_neg top]
    exact ⟨matched, total, rfl, last⟩

/-- A component is put behind the text, and the counters do not wrap. -/
theorem Locals.push (locals : Locals mount cursor place rooted) {name : Str} (plain : '/' ∉ name) {matched : BitVec 32}
    (count : matched.toNat = matchedCount mount (place ++ [name])) (small : place.length + 1 < 2 ^ 32) :
    Locals mount ⟨cursor.resolved ++ '/' :: name, matched, cursor.resolvedComponents + 1,
      cursor.resolved.length⟩ (place ++ [name]) rooted := by
  refine ⟨count, ?_, ?_, fun _ => (findLastSeparator_append _ plain).symm⟩
  · have total := locals.total
    rw [BitVec.toNat_add, total, List.length_append, List.length_singleton]
    exact Nat.mod_eq_of_lt small
  · rw [locals.text, text_concat, List.append_assoc]

theorem Locals.pushInside (locals : Locals mount cursor place rooted) (inside : mount <+: place) {name : Str} (plain : '/' ∉ name)
    (small : place.length + 1 < 2 ^ 32) :
    Locals mount ⟨cursor.resolved ++ '/' :: name, cursor.matchedComponents + 1, cursor.resolvedComponents + 1, cursor.resolved.length⟩
      (place ++ [name]) rooted := by
  refine locals.push plain ?_ small
  have most := matchedCount_le mount place
  rw [matchedCount_inside inside, BitVec.toNat_add, locals.matched]
  exact Nat.mod_eq_of_lt (show matchedCount mount place + 1 < 2 ^ 32 by omega)

end locals

/-- What the resolver returns at a place. -/
def conclusion (mount place : List Str) (rooted : Bool) : Option (Bool × Str) :=
  let resolved := lead rooted ++ text place
  if mount <+: place then
    if resolved = [] then none else some (true, resolved.take 1 ++ resolved.drop (1 + (join mount).length))
  else some (false, if resolved = [] then ['/'] else resolved)

theorem conclude_counted {mount : List Str} (mounted : ∀ part ∈ mount, IsName part) {cursor : Cursor} {place : List Str} {rooted : Bool}
    (matched : cursor.matchedComponents.toNat = matchedCount mount place) (resolved : cursor.resolved = lead rooted ++ text place) :
    conclude (join mount) cursor = conclusion mount place rooted := by
  simp only [conclude, conclusion, splitPath_join mounted, matched, length_le_matchedCount, resolved]

/-- The answer of the resolver for a place. -/
def answer (mount place : List Str) : Bool × Str :=
  if mount <+: place then (true, join (place.drop mount.length)) else (false, join place)

theorem conclusion_eq {mount : List Str} (deeper : mount ≠ []) (place : List Str) :
    conclusion mount place false = some (answer mount place) := by
  simp only [conclusion, answer, lead, Bool.false_eq_true, if_false, List.nil_append]
  rw [join_eq_text deeper]
  by_cases inside : mount <+: place
  · obtain ⟨below, rfl⟩ := inside
    have first : (text mount).take 1 = ['/'] := by
      obtain ⟨name, others, rfl⟩ := List.exists_cons_of_ne_nil deeper
      simp [text_cons]
    have nonempty : 1 ≤ (text mount).length := by
      by_contra short
      simp [List.eq_nil_of_length_eq_zero (Nat.lt_one_iff.mp (Nat.not_le.mp short))] at first
    have some_text : text mount ++ text below ≠ [] := fun empty => by simp [(List.append_eq_nil_iff.mp empty).1] at nonempty
    rw [if_pos (List.prefix_append mount below), if_pos (List.prefix_append mount below), List.drop_left, text_append,
      if_neg some_text, List.take_append_of_le_length nonempty, first, Nat.add_comm, ← List.drop_drop, List.drop_left]
    cases below with
    | nil => rfl
    | cons name below =>
      rw [text_cons, join_eq_text (by simp), text_cons]
      rfl
  · rw [if_neg inside, if_neg inside]
    cases place with
    | nil => rfl
    | cons name place =>
      rw [text_cons, if_neg (by simp), join_eq_text (by simp), text_cons]

/-- What a component does to a list of names. -/
def lexicalStep (place : List Str) (name : Str) : List Str :=
  if name = ['.'] then place else if name = ['.', '.'] then place.dropLast else place ++ [name]

theorem foldl_lexicalStep {below : List Str} (valid : ∀ name ∈ below, IsName name) (place : List Str) :
    below.foldl lexicalStep place = place ++ below := by
  induction below generalizing place with
  | nil => simp
  | cons name below ih =>
    obtain ⟨isName, others⟩ := List.forall_mem_cons.mp valid
    rw [List.foldl_cons, lexicalStep, if_neg isName.notDot, if_neg isName.notDotDot, ih others, List.append_assoc,
      List.singleton_append]

/-- The names of a path after `.` is dropped and `..` has taken the name before it. -/
def lexical (path : Str) : List Str := (names path).foldl lexicalStep []

/-- The places outside of the mount directory that the loop looks at. -/
def visited (mount : List Str) : List Str → List Str → List (List Str)
  | _, [] => []
  | place, name :: behind =>
    let next := lexicalStep place name
    if name = ['.'] ∨ name = ['.', '.'] ∨ mount <+: place then visited mount next behind
    else next :: visited mount next behind

theorem lstat_directory {system : System} {place : List Str} (valid : ∀ name ∈ place, IsName name)
    (directory : system.tree.lookup place = some .directory) : system.lstat (text place) = some .directory := by
  have cut := parts_text valid separated_nil
  rw [List.append_nil] at cut
  rw [System.lstat, cut, NameTree.walk_from_root LastLink.not_takesLast_keep directory, parts_eq_nil.mpr rfl, NameTree.walk_nil]
  exact directory

section turn
variable {system : System} {mount : List Str} {resolveLastLink : Bool} {cursor : Cursor} {place : List Str} {rooted : Bool}
    {name rest : Str}

theorem turn_up (locals : Locals mount cursor place rooted) (valid : ∀ name ∈ place, IsName name) :
    ∃ next, turn system (join mount) resolveLastLink cursor ['.', '.'] rest = some (.next next) ∧
      Locals mount next place.dropLast (rooted && !place.isEmpty) := by
  obtain ⟨next, rolled, locals⟩ := locals.rollback valid
  refine ⟨next, ?_, locals⟩
  rw [turn, if_neg (by decide), if_pos rfl, rolled]
  rfl

theorem turn_inside (mounted : ∀ part ∈ mount, IsName part) (valid : IsName name) (locals : Locals mount cursor place rooted)
    (inside : mount <+: place) :
    turn system (join mount) resolveLastLink cursor name rest =
      some (.next ⟨cursor.resolved ++ '/' :: name, cursor.matchedComponents + 1, cursor.resolvedComponents + 1,
        cursor.resolved.length⟩) := by
  have full : ¬ matchedCount mount place < mount.length := Nat.not_lt.mpr (length_le_matchedCount.mpr inside)
  simp only [turn, if_neg valid.notDot, if_neg valid.notDotDot, splitPath_join mounted, locals.matched, if_neg full]

/-- The matched components behind a component outside of the mount directory. -/
def matchedNext (mount : List Str) (cursor : Cursor) (name : Str) : BitVec 32 :=
  if cursor.matchedComponents = cursor.resolvedComponents ∧ mount[cursor.matchedComponents.toNat]? = some name then
    cursor.matchedComponents + 1
  else cursor.matchedComponents

/-- The cursor behind a component outside of the mount directory that is no link. -/
def pushed (mount : List Str) (cursor : Cursor) (name : Str) : Cursor :=
  ⟨cursor.resolved ++ '/' :: name, matchedNext mount cursor name, cursor.resolvedComponents + 1, cursor.resolved.length⟩

theorem Locals.matchedNext (locals : Locals mount cursor place rooted) (outside : ¬ mount <+: place) (name : Str)
    (small : place.length + 1 < 2 ^ 32) : (matchedNext mount cursor name).toNat = matchedCount mount (place ++ [name]) := by
  have most := matchedCount_le mount place
  simp only [PathResolution.matchedNext, matchedCount_outside outside, locals.counters_eq, locals.matched]
  split
  next =>
    rw [BitVec.toNat_add, locals.matched]
    exact Nat.mod_eq_of_lt (show matchedCount mount place + 1 < 2 ^ 32 by omega)
  next => exact locals.matched

theorem Locals.pushed (locals : Locals mount cursor place rooted) (outside : ¬ mount <+: place) {name : Str} (plain : '/' ∉ name)
    (small : place.length + 1 < 2 ^ 32) : Locals mount (pushed mount cursor name) (place ++ [name]) rooted :=
  locals.push plain (locals.matchedNext outside name small) small

theorem Locals.short (locals : Locals mount cursor place rooted) (outside : ¬ mount <+: place) :
    cursor.matchedComponents.toNat < mount.length := by
  rw [locals.matched]
  exact Nat.not_le.mp (mt length_le_matchedCount.mp outside)

variable (mounted : ∀ part ∈ mount, IsName part) (valid : IsName name) (locals : Locals mount cursor place rooted)
  (outside : ¬ mount <+: place)
include mounted valid locals outside

theorem turn_missing (absent : system.lstat (cursor.resolved ++ '/' :: name) = none) :
    turn system (join mount) resolveLastLink cursor name rest = some (.leave (cursor.resolved ++ '/' :: name ++ rest)) := by
  simp only [turn, if_neg valid.notDot, if_neg valid.notDotDot, splitPath_join mounted, if_pos (locals.short outside), absent]

theorem turn_directory (present : system.lstat (cursor.resolved ++ '/' :: name) = some .directory) :
    turn system (join mount) resolveLastLink cursor name rest = some (.next (pushed mount cursor name)) := by
  simp only [turn, if_neg valid.notDot, if_neg valid.notDotDot, splitPath_join mounted, if_pos (locals.short outside), present,
    pushed, matchedNext]

theorem turn_file (present : system.lstat (cursor.resolved ++ '/' :: name) = some .file) :
    turn system (join mount) resolveLastLink cursor name rest =
      some (if rest = [] then .next (pushed mount cursor name) else .leave (cursor.resolved ++ '/' :: name ++ rest)) := by
  simp only [turn, if_neg valid.notDot, if_neg valid.notDotDot, splitPath_join mounted, if_pos (locals.short outside), present,
    List.isEmpty_iff, pushed, matchedNext]
  split <;> rfl

section link
variable {absolute : Bool} {target : List (Component Str)}
  (link : system.lstat (cursor.resolved ++ '/' :: name) = some (.link absolute target))
include link

theorem turn_kept (kept : resolveLastLink = false ∧ rest = []) :
    turn system (join mount) resolveLastLink cursor name rest =
      some (.next { pushed mount cursor name with resolvedComponents := cursor.resolvedComponents }) := by
  obtain ⟨rfl, rfl⟩ := kept
  simp only [turn, if_neg valid.notDot, if_neg valid.notDotDot, splitPath_join mounted, if_pos (locals.short outside), link,
    Bool.not_false, List.isEmpty_nil, Bool.and_self, if_true, pushed, matchedNext]

theorem turn_broken (followed : ¬ (resolveLastLink = false ∧ rest = []))
    (broken : system.realpath (cursor.resolved ++ '/' :: name) = none) :
    turn system (join mount) resolveLastLink cursor name rest = some (.leave (cursor.resolved ++ '/' :: name ++ rest)) := by
  have taken : (!resolveLastLink && rest.isEmpty) = false := by simpa using followed
  simp only [turn, if_neg valid.notDot, if_neg valid.notDotDot, splitPath_join mounted, if_pos (locals.short outside), link,
    taken, Bool.false_eq_true, if_false, broken]

theorem turn_landed (followed : ¬ (resolveLastLink = false ∧ rest = [])) {goal : Str}
    (landed : system.realpath (cursor.resolved ++ '/' :: name) = some goal) :
    turn system (join mount) resolveLastLink cursor name rest =
      (matchComponentsAt goal mount).map fun counts => .next ⟨goal, counts.1, counts.2, findLastSeparator goal⟩ := by
  have taken : (!resolveLastLink && rest.isEmpty) = false := by simpa using followed
  simp only [turn, if_neg valid.notDot, if_neg valid.notDotDot, splitPath_join mounted, if_pos (locals.short outside), link,
    taken, Bool.false_eq_true, if_false, landed]

end link

end turn

theorem resolveLoop_lexical {system : System} {mount : List Str} (mounted : ∀ name ∈ mount, IsName name) (deeper : mount ≠ [])
    (resolveLastLink : Bool) {path : Str} {cursor : Cursor} {place : List Str} (valid : ∀ name ∈ place, IsName name)
    (locals : Locals mount cursor place false) (small : place.length + (names path).length < 2 ^ 32)
    (directories : ∀ next ∈ visited mount place (names path), system.tree.lookup next = some .directory) :
    resolveLoop system (join mount) resolveLastLink (tokens path) cursor =
      some (answer mount ((names path).foldl lexicalStep place)) := by
  rw [← map_tokens] at directories small ⊢
  generalize all : tokens path = behind at directories small ⊢
  induction behind generalizing path cursor place with
  | nil => exact (conclude_counted mounted locals.matched locals.text).trans (conclusion_eq deeper place)
  | cons token behind ih =>
    obtain ⟨name, rest⟩ := token
    obtain ⟨first, rfl⟩ := first_of_tokens all
    rw [List.map_cons, List.foldl_cons]
    rw [List.map_cons, visited] at directories
    rw [List.map_cons, List.length_cons] at small
    by_cases dot : name = ['.']
    · subst dot
      exact ih valid locals rfl (by simpa [lexicalStep] using directories) (Nat.lt_of_succ_lt small)
    by_cases dotDot : name = ['.', '.']
    · subst dotDot
      have shorter : ∀ name ∈ place.dropLast, IsName name := fun name member => valid name (List.mem_of_mem_dropLast member)
      obtain ⟨next, turned, locals⟩ := @turn_up system mount resolveLastLink cursor place false rest locals valid
      simp only [resolveLoop, turned, Option.bind_eq_bind, Option.bind_some]
      refine ih shorter locals rfl (by simpa [lexicalStep] using directories) ?_
      show place.dropLast.length + _ < 2 ^ 32
      rw [List.length_dropLast]
      omega
    · have isName : IsName name := ⟨first.nonempty, first.plain, dot, dotDot⟩
      have longer : ∀ part ∈ place ++ [name], IsName part := isName_concat valid isName
      have next : lexicalStep place name = place ++ [name] := by rw [lexicalStep, if_neg dot, if_neg dotDot]
      have short : place.length + 1 < 2 ^ 32 := by omega
      have fewer : (place ++ [name]).length + ((tokens rest).map Prod.fst).length < 2 ^ 32 := by
        rw [List.length_append, List.length_singleton]
        omega
      simp only [next, dot, dotDot, false_or] at directories ⊢
      by_cases inside : mount <+: place
      · rw [if_pos inside] at directories
        simp only [resolveLoop, turn_inside mounted isName locals inside, Option.bind_eq_bind, Option.bind_some]
        exact ih longer (locals.pushInside inside first.plain short) rfl directories fewer
      · rw [if_neg inside] at directories
        obtain ⟨here, further⟩ := List.forall_mem_cons.mp directories
        have found : system.lstat (cursor.resolved ++ '/' :: name) = some .directory := by
          have whole : cursor.resolved ++ '/' :: name = text (place ++ [name]) := by
            rw [locals.text, text_concat]
            rfl
          rw [whole]
          exact lstat_directory longer here
        simp only [resolveLoop, turn_directory mounted isName locals inside found, Option.bind_eq_bind, Option.bind_some]
        exact ih longer (locals.pushed inside first.plain short) rfl further fewer

theorem excluded_eq_false {path : Str} (absolute : isAbsolute path = true) (noSys : ¬ "/sys/".toList <+: path)
    (noProc : ¬ "/proc/".toList <+: path) : excluded path = false := by
  cases path with
  | nil => cases absolute
  | cons c behind =>
    obtain rfl : c = '/' := by simpa [isAbsolute] using absolute
    simpa [excluded, excludedPaths, List.cons_prefix_cons, Bool.eq_false_iff] using And.intro noSys noProc

/-- The mount directory in the root and nothing else. -/
def mountOnly (mount : Str) : NameTree Str where
  lookup place := if place = [] ∨ place = [mount] then some .directory else none
  root := rfl
  parent {place name node} present := by
    cases place with
    | nil => rfl
    | cons first place => simp at present

/-- A path of `n` names below the mount directory `/m`. -/
def deepPath (n : Nat) : Str := join (['m'] :: List.replicate n ['x'])

section deep
variable (n : Nat)

theorem isName_deep : ∀ name ∈ ['m'] :: List.replicate n ['x'], IsName name := by
  refine List.forall_mem_cons.mpr ⟨by decide, fun name member => ?_⟩
  rw [List.eq_of_mem_replicate member]
  decide

theorem names_deepPath : names (deepPath n) = ['m'] :: List.replicate n ['x'] := by
  have cut := names_text (isName_deep n) separated_nil
  rw [List.append_nil] at cut
  rw [deepPath, join_eq_text (by simp), cut]
  simp [names]

theorem lexical_deepPath : lexical (deepPath n) = ['m'] :: List.replicate n ['x'] := by
  rw [lexical, names_deepPath, foldl_lexicalStep (isName_deep n), List.nil_append]

theorem visited_below {mount place : List Str} (inside : mount <+: place) {below : List Str} (valid : ∀ name ∈ below, IsName name) :
    visited mount place below = [] := by
  induction below generalizing place with
  | nil => rfl
  | cons name below ih =>
    obtain ⟨isName, others⟩ := List.forall_mem_cons.mp valid
    have next : lexicalStep place name = place ++ [name] := by rw [lexicalStep, if_neg isName.notDot, if_neg isName.notDotDot]
    simp only [visited, next, inside, or_true, if_true]
    exact ih (inside.trans (List.prefix_append place [name])) others

theorem visited_deepPath : visited [['m']] [] (names (deepPath n)) = [[['m']]] := by
  have below := @visited_below [['m']] [['m']] (List.prefix_refl _) (List.replicate n ['x'])
    fun name member => isName_deep n name (List.mem_cons_of_mem _ member)
  rw [names_deepPath, visited, if_neg (by decide)]
  exact congrArg (List.cons _) below

end deep

theorem tokens_text_cons {name : Str} (valid : IsName name) (below : List Str) :
    tokens (text (name :: below)) = (name, text below) :: tokens (text below) := by
  have separated : Separated (text below) := by simpa using separated_text below separated_nil
  rw [tokens_eq, text_cons, nextComponent_slash, nextComponent_append valid.nonempty valid.plain separated, if_neg valid.nonempty]

section wraps
variable {system : System} {resolveLastLink : Bool} {place : List Str} {cursor : Cursor} {name : Str}

theorem turn_matched (inside : 0 < cursor.matchedComponents.toNat) (valid : IsName name) (rest : Str) :
    turn system (join [['m']]) resolveLastLink cursor name rest =
      some (.next ⟨cursor.resolved ++ '/' :: name, cursor.matchedComponents + 1, cursor.resolvedComponents + 1,
        cursor.resolved.length⟩) := by
  have mountdir : splitPath (join [['m']]) = [['m']] := rfl
  have full : ¬ cursor.matchedComponents.toNat < [['m']].length := Nat.not_lt.mpr inside
  simp only [turn, if_neg valid.notDot, if_neg valid.notDotDot, mountdir, if_neg full]

theorem conclude_unmatched (unmatched : cursor.matchedComponents = 0) (resolved : cursor.resolved = text place) :
    conclude (join [['m']]) cursor = some (false, join place) := by
  have mountdir : splitPath (join [['m']]) = [['m']] := rfl
  rw [conclude, mountdir, unmatched, if_neg (by decide), resolved]
  cases place with
  | nil => rfl
  | cons name place => rw [if_neg (by simp [text_cons]), join_eq_text (by simp)]

/-- With as many names as it can count the loop is back at no match. -/
theorem resolveLoop_wraps {n : Nat} (resolved : cursor.resolved = text place) (inside : 0 < cursor.matchedComponents.toNat)
    (wraps : cursor.matchedComponents.toNat + n = 2 ^ 32) :
    resolveLoop system (join [['m']]) resolveLastLink (tokens (text (List.replicate n ['x']))) cursor =
      some (false, join (place ++ List.replicate n ['x'])) := by
  induction n generalizing place cursor with
  | zero => exact absurd wraps (Nat.ne_of_lt cursor.matchedComponents.isLt)
  | succ n ih =>
    have longer : cursor.resolved ++ ['/', 'x'] = text (place ++ [['x']]) := by rw [resolved, text_concat]
    have shape : place ++ List.replicate (n + 1) ['x'] = (place ++ [['x']]) ++ List.replicate n ['x'] := by
      rw [List.append_assoc, List.replicate_succ, List.singleton_append]
    rw [shape, List.replicate_succ, tokens_text_cons (by decide)]
    simp only [resolveLoop, turn_matched inside (show IsName ['x'] by decide), Option.bind_eq_bind, Option.bind_some]
    by_cases last : n = 0
    · subst last
      have zero : cursor.matchedComponents + 1 = 0 := by
        rw [← BitVec.toNat_inj, BitVec.toNat_add]
        exact (congrArg (· % 2 ^ 32) wraps).trans (Nat.mod_self _)
      rw [List.replicate_zero, List.append_nil]
      exact conclude_unmatched zero longer
    · have counted : (cursor.matchedComponents + 1).toNat = cursor.matchedComponents.toNat + 1 := by
        rw [BitVec.toNat_add]
        exact Nat.mod_eq_of_lt (show cursor.matchedComponents.toNat + 1 < 2 ^ 32 by omega)
      refine ih longer ?_ ?_
      · rw [counted]
        exact Nat.succ_pos _
      · rw [counted]
        omega

end wraps

theorem resolve_deepPath {n : Nat} (wraps : 1 + n = 2 ^ 32) :
    resolve ⟨mountOnly ['m'], 40⟩ (join [['m']]) true (deepPath n) = some (false, deepPath n) := by
  have spared : excluded (deepPath n) = false := rfl
  have found : (System.mk (mountOnly ['m']) 40).lstat "/m".toList = some .directory := by decide
  have entered := @turn_directory ⟨mountOnly ['m'], 40⟩ [['m']] true ⟨[], 0, 0, 0⟩ [] false ['m'] (text (List.replicate n ['x']))
      (by decide)
    (by decide) (locals_root [['m']]) (by decide) found
  have split : tokens (deepPath n) = (['m'], text (List.replicate n ['x'])) :: tokens (text (List.replicate n ['x'])) :=
    tokens_text_cons (by decide) _
  rw [resolve, spared, if_neg Bool.false_ne_true, split]
  simp only [resolveLoop, entered, Option.bind_eq_bind, Option.bind_some]
  exact @resolveLoop_wraps ⟨mountOnly ['m'], 40⟩ true [['m']] (pushed [['m']] ⟨[], 0, 0, 0⟩ ['m']) n rfl (by decide) wraps

end GekkoFwd.Proofs.PathResolution
