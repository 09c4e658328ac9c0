import GekkoFwd.PathResolver

/-! The text of a path and its components: how the resolver and the kernel cut a path, and
what the text of a place is cut into. -/

namespace GekkoFwd.Proofs.PathText
open Lib.NamingTree GekkoFwd.Path PathResolver

/-- The rest of a path behind a component. -/
def Separated (rest : Str) : Prop := ∀ c ∈ rest.head?, c = '/'

theorem separated_nil : Separated [] := by simp [Separated]

theorem separated_slash (rest : Str) : Separated ('/' :: rest) := by simp [Separated]

/-- What the component and the rest are of the text they were cut from. -/
structure Cut (path name rest : Str) : Prop where
  leading : ∃ slashes, (∀ c ∈ slashes, c = '/') ∧ path = slashes ++ (name ++ rest)
  plain : '/' ∉ name
  separated : Separated rest
  ended : name = [] → rest = []

theorem cut_nextComponent (path : Str) : Cut path (nextComponent path).1 (nextComponent path).2 := by
  refine ⟨⟨path.takeWhile (· == '/'), ?_, ?_⟩, ?_, ?_, ?_⟩
  · intro c member
    simpa using List.mem_takeWhile_imp member
  · simp only [nextComponent, List.takeWhile_append_dropWhile]
  · intro member
    simpa using List.mem_takeWhile_imp member
  · intro c first
    have stop := List.head?_dropWhile_not (fun c => c != '/') (path.dropWhile (· == '/'))
    simp only [nextComponent, Option.mem_def] at first
    rw [first] at stop
    simpa using stop
  · intro empty
    have stop := List.head?_dropWhile_not (fun c => c == '/') path
    cases body : path.dropWhile (· == '/') with
    | nil => simp [nextComponent, body]
    | cons c behind =>
      have other : c ≠ '/' := by simpa [body] using stop
      simp [nextComponent, body, other] at empty

theorem nextComponent_slash (path : Str) : nextComponent ('/' :: path) = nextComponent path := by
  simp [nextComponent]

/-- A name ends where the text behind it begins with a separator. -/
theorem takeWhile_name {name rest : Str} (plain : '/' ∉ name) (separated : Separated rest) :
    (name ++ rest).takeWhile (· != '/') = name ∧ (name ++ rest).dropWhile (· != '/') = rest := by
  have all : ∀ c ∈ name, (c != '/') = true := by
    intro c member
    have other : c ≠ '/' := fun same => plain (same ▸ member)
    simpa using other
  rw [List.takeWhile_append_of_pos all, List.dropWhile_append_of_pos all]
  cases rest with
  | nil => simp
  | cons c behind =>
    have slash : c = '/' := separated c (by simp)
    simp [slash]

theorem nextComponent_append {name rest : Str} (nonempty : name ≠ []) (plain : '/' ∉ name) (separated : Separated rest) :
    nextComponent (name ++ rest) = (name, rest) := by
  have body : (name ++ rest).dropWhile (· == '/') = name ++ rest := by
    obtain ⟨c, behind, rfl⟩ := List.exists_cons_of_ne_nil nonempty
    have other : c ≠ '/' := fun same => plain (same ▸ List.mem_cons_self)
    simp [other]
  obtain ⟨taken, left⟩ := takeWhile_name plain separated
  simp only [nextComponent, body, taken, left]

theorem tokensFrom_enough {fuel more : Nat} {path : Str} (enough : path.length ≤ fuel) (also : path.length ≤ more) :
    tokensFrom fuel path = tokensFrom more path := by
  have empty : ∀ fuel, tokensFrom fuel [] = [] := fun fuel => by cases fuel <;> simp [tokensFrom, nextComponent]
  induction fuel generalizing more path with
  | zero =>
    obtain rfl : path = [] := List.eq_nil_of_length_eq_zero (by omega)
    rw [empty, empty]
  | succ fuel ih =>
    cases more with
    | zero =>
      obtain rfl : path = [] := List.eq_nil_of_length_eq_zero (by omega)
      rw [empty, empty]
    | succ more =>
      obtain ⟨slashes, _, whole⟩ := (cut_nextComponent path).leading
      have length := congrArg List.length whole
      simp only [List.length_append] at length
      simp only [tokensFrom]
      split
      · rfl
      · next nonempty =>
        have positive : 0 < (nextComponent path).1.length := List.length_pos_of_ne_nil nonempty
        exact congrArg _ (ih (by omega) (by omega))

theorem tokens_eq (path : Str) :
    tokens path =
      if (nextComponent path).1 = [] then []
      else ((nextComponent path).1, (nextComponent path).2) :: tokens (nextComponent path).2 := by
  cases whole : path with
  | nil => rfl
  | cons c behind =>
    rw [← whole]
    have step : tokens path = tokensFrom (behind.length + 1) path := by rw [tokens, whole, List.length_cons]
    simp only [step, tokensFrom]
    split
    · rfl
    · next nonempty =>
      obtain ⟨slashes, _, cut⟩ := (cut_nextComponent path).leading
      have length : path.length = slashes.length + ((nextComponent path).1.length + (nextComponent path).2.length) := by
        simpa only [List.length_append] using congrArg List.length cut
      have size : path.length = behind.length + 1 := by rw [whole, List.length_cons]
      have positive : 0 < (nextComponent path).1.length := List.length_pos_of_ne_nil nonempty
      exact congrArg _ (tokensFrom_enough (by omega) (Nat.le_refl _))

theorem hasTrailingSlash_cut {path name rest : Str} (cut : Cut path name rest) (nonempty : name ≠ []) :
    hasTrailingSlash path = hasTrailingSlash rest := by
  obtain ⟨slashes, _, rfl⟩ := cut.leading
  by_cases last : rest = []
  · subst last
    have plain : name.getLast nonempty ≠ '/' := fun same => cut.plain (same ▸ List.getLast_mem nonempty)
    simp [hasTrailingSlash, List.getLast?_append, List.getLast?_eq_getLast_of_ne_nil nonempty, plain]
  · simp [hasTrailingSlash, List.getLast?_append, List.getLast?_eq_getLast_of_ne_nil last]

/-- A path without components. -/
theorem parts_of_tokens_nil {path : Str} (none : tokens path = []) : parts path = [] ∨ parts path = [.slash] := by
  rw [parts, none]
  split <;> simp

/-- The first component of a path. -/
structure First (path name rest : Str) : Prop where
  plain : '/' ∉ name
  nonempty : name ≠ []
  separated : Separated rest
  parts : parts path = part name :: PathResolver.parts rest

theorem first_of_tokens {path name rest : Str} {behind : List (Str × Str)} (some : tokens path = (name, rest) :: behind) :
    First path name rest ∧ behind = tokens rest := by
  have cut := cut_nextComponent path
  rw [tokens_eq] at some
  split at some
  · cases some
  · next nonempty =>
    obtain ⟨token, rfl⟩ := List.cons.inj some
    obtain ⟨rfl, rfl⟩ := Prod.mk.inj token
    refine ⟨⟨cut.plain, nonempty, cut.separated, ?_⟩, rfl⟩
    rw [parts, tokens_eq, if_neg nonempty, hasTrailingSlash_cut cut nonempty]
    rfl

theorem parts_eq_nil {path : Str} : parts path = [] ↔ path = [] := by
  refine ⟨fun none => ?_, fun empty => by subst empty; rfl⟩
  have cut := cut_nextComponent path
  obtain ⟨slashes, all, whole⟩ := cut.leading
  obtain ⟨noToken, noSlash⟩ := List.append_eq_nil_iff.mp none
  by_cases nonempty : (nextComponent path).1 = []
  · rw [nonempty, cut.ended nonempty] at whole
    simp only [List.append_nil] at whole
    subst whole
    by_contra some
    have slash := all _ (List.getLast_mem some)
    simp [hasTrailingSlash, List.getLast?_eq_getLast_of_ne_nil some, slash] at noSlash
  · rw [tokens_eq, if_neg nonempty] at noToken
    simp at noToken

/-- The texts between separators that are not empty. -/
def names (path : Str) : List Str := (path.splitOn '/').filter (· ≠ [])

theorem names_slash (path : Str) : names ('/' :: path) = names path := by
  have split := List.splitOn_append_cons_self_of_not_mem (List.not_mem_nil (a := '/')) path
  rw [List.nil_append] at split
  simp [names, split]

theorem names_slashes {slashes : Str} (all : ∀ c ∈ slashes, c = '/') (path : Str) : names (slashes ++ path) = names path := by
  induction slashes with
  | nil => rfl
  | cons c slashes ih =>
    obtain ⟨rfl, others⟩ := List.forall_mem_cons.mp all
    exact (names_slash _).trans (ih others)

theorem names_append {name rest : Str} (nonempty : name ≠ []) (plain : '/' ∉ name) (separated : Separated rest) :
    names (name ++ rest) = name :: names rest := by
  cases rest with
  | nil => simp [names, List.splitOn_eq_singleton plain, nonempty]
  | cons c behind =>
    obtain rfl : c = '/' := separated c rfl
    rw [names_slash, names, List.splitOn_append_cons_self_of_not_mem plain, List.filter_cons_of_pos (by simpa using nonempty)]
    rfl

/-- The resolver goes through the texts between separators. -/
theorem map_tokens (path : Str) : (tokens path).map Prod.fst = names path := by
  generalize all : tokens path = behind
  induction behind generalizing path with
  | nil =>
    have cut := cut_nextComponent path
    obtain ⟨slashes, slash, whole⟩ := cut.leading
    rw [tokens_eq] at all
    split at all
    · next empty =>
      rw [whole, empty, cut.ended empty, names_slashes slash]
      rfl
    · cases all
  | cons token behind ih =>
    have cut := cut_nextComponent path
    obtain ⟨slashes, slash, whole⟩ := cut.leading
    rw [tokens_eq] at all
    split at all
    · cases all
    · next nonempty =>
      obtain ⟨rfl, rest⟩ := List.cons.inj all
      rw [List.map_cons, ih _ rest]
      conv_rhs => rw [whole, names_slashes slash, names_append nonempty cut.plain cut.separated]

theorem isName_concat {place : List Str} {name : Str} (valid : ∀ part ∈ place, IsName part) (isName : IsName name) :
    ∀ part ∈ place ++ [name], IsName part := by
  intro part member
  rcases List.mem_append.mp member with above | last
  · exact valid part above
  · exact List.mem_singleton.mp last ▸ isName

theorem part_of_name {name : Str} (valid : IsName name) : part name = .down name := by
  rw [part, if_neg valid.notDot, if_neg valid.notDotDot]

/-- The text that leads to a place, empty for the root. -/
def text (place : List Str) : Str := place.flatMap fun name => '/' :: name

theorem text_cons (name : Str) (place : List Str) : text (name :: place) = '/' :: (name ++ text place) := by
  simp [text]

theorem text_append (place below : List Str) : text (place ++ below) = text place ++ text below := by
  simp [text]

theorem text_concat (place : List Str) (name : Str) : text (place ++ [name]) = text place ++ '/' :: name := by
  simp [text]

theorem join_eq_text {place : List Str} (deeper : place ≠ []) : join place = text place := by
  cases place with
  | nil => exact absurd rfl deeper
  | cons name place => rfl

theorem separated_text (place : List Str) {rest : Str} (separated : Separated rest) : Separated (text place ++ rest) := by
  cases place with
  | nil => simpa [text] using separated
  | cons name place =>
    rw [text_cons]
    exact separated_slash _

theorem names_text {place : List Str} (valid : ∀ name ∈ place, IsName name) {rest : Str} (separated : Separated rest) :
    names (text place ++ rest) = place ++ names rest := by
  induction place with
  | nil => rfl
  | cons name place ih =>
    obtain ⟨isName, others⟩ := List.forall_mem_cons.mp valid
    rw [text_cons, List.cons_append, names_slash, List.append_assoc,
      names_append isName.nonempty isName.plain (separated_text place separated), ih others, List.cons_append]

theorem parts_step {path name rest : Str} (next : nextComponent path = (name, rest)) (nonempty : name ≠ []) :
    parts path = part name :: parts rest := by
  have cut := cut_nextComponent path
  rw [next] at cut
  rw [parts, tokens_eq, next, if_neg nonempty, hasTrailingSlash_cut cut nonempty]
  rfl

/-- The kernel reads the names of a place from its text. -/
theorem parts_text {place : List Str} (valid : ∀ name ∈ place, IsName name) {rest : Str} (separated : Separated rest) :
    parts (text place ++ rest) = route place ++ parts rest := by
  induction place with
  | nil => simp [text, route]
  | cons name place ih =>
    obtain ⟨first, others⟩ := List.forall_mem_cons.mp valid
    have next : nextComponent (text (name :: place) ++ rest) = (name, text place ++ rest) := by
      rw [text_cons, List.cons_append, nextComponent_slash, List.append_assoc]
      exact nextComponent_append first.nonempty first.plain (separated_text place separated)
    rw [parts_step next first.nonempty, part_of_name first, ih others]
    rfl

/-- A second separator at the start adds no component. -/
theorem parts_slash {path : Str} (deeper : path ≠ []) : parts ('/' :: path) = parts path := by
  have trailing : hasTrailingSlash ('/' :: path) = hasTrailingSlash path := by
    obtain ⟨c, behind, rfl⟩ := List.exists_cons_of_ne_nil deeper
    simp [hasTrailingSlash]
  rw [parts, parts, tokens_eq, nextComponent_slash, ← tokens_eq, trailing]

theorem part_ne_slash (name : Str) : part name ≠ .slash := by
  rw [part]
  split
  next => simp
  next => split <;> simp

/-- A path that does not begin with a separator begins with a component. -/
theorem not_ended_parts {path : Str} (nonempty : path ≠ []) (relative : isAbsolute path = false) : ¬ Ended (parts path) := by
  obtain ⟨c, behind, rfl⟩ := List.exists_cons_of_ne_nil nonempty
  have other : c ≠ '/' := by simpa [isAbsolute] using relative
  have named : (nextComponent (c :: behind)).1 ≠ [] := by simp [nextComponent, other]
  rw [parts_step rfl named]
  exact fun ended => part_ne_slash _ (ended _ List.mem_cons_self)

theorem splitOn_text {name : Str} {place : List Str} (valid : ∀ part ∈ name :: place, IsName part) :
    ((text (name :: place)).drop 1).splitOn '/' = name :: place := by
  induction place generalizing name with
  | nil => simpa [text] using List.splitOn_eq_singleton (valid name List.mem_cons_self).plain
  | cons next place ih =>
    obtain ⟨first, others⟩ := List.forall_mem_cons.mp valid
    have shape : (text (name :: next :: place)).drop 1 = name ++ '/' :: (text (next :: place)).drop 1 := by
      rw [text_cons, text_cons]
      rfl
    rw [shape, List.splitOn_append_cons_self_of_not_mem first.plain, ih others]

theorem pieces_text {place : List Str} (valid : ∀ name ∈ place, IsName name) : pieces ((text place).drop 1) = place := by
  cases place with
  | nil => rfl
  | cons name place =>
    have last : (name :: place).getLast? ≠ some [] := by
      intro empty
      exact (valid [] (List.mem_of_getLast? empty)).nonempty rfl
    rw [pieces, splitOn_text valid, if_neg last]

theorem splitPath_join {place : List Str} (valid : ∀ name ∈ place, IsName name) : splitPath (join place) = place := by
  rw [splitPath, if_pos (isAbsolute_join place)]
  cases place with
  | nil => rfl
  | cons name place => exact pieces_text valid

/-! The components of `mountdir` that a place has in common with it. -/

/-- How many leading components two paths share. -/
def shared : List Str → List Str → Nat
  | name :: place, component :: components => if name = component then shared place components + 1 else 0
  | _, _ => 0

theorem shared_nil (components : List Str) : shared [] components = 0 := by
  cases components <;> rfl

theorem shared_le (place components : List Str) : shared place components ≤ place.length := by
  fun_induction shared place components with
  | case1 name place components ih =>
    rw [List.length_cons]
    omega
  | case2 name place component components other => omega
  | case3 place components _ => omega

/-- One more component is shared when all before it are and it is the next one. -/
theorem shared_concat (place components : List Str) (name : Str) :
    shared (place ++ [name]) components =
      if shared place components = place.length ∧ components[shared place components]? = some name then
        shared place components + 1
      else shared place components := by
  fun_induction shared place components with
  | case1 first place components ih =>
    simp only [List.cons_append, shared, if_true, ih, List.length_cons, Nat.add_right_cancel_iff, List.getElem?_cons_succ]
    split <;> rfl
  | case2 first place component components other => simp [shared, other]
  | case3 place components none =>
    cases components with
    | nil => cases place <;> simp [shared]
    | cons component components =>
      cases place with
      | nil => simp [shared, eq_comm]
      | cons first place => exact absurd rfl (none first place component components rfl)

theorem shared_dropLast (place components : List Str) :
    shared place.dropLast components = min (shared place components) (place.length - 1) := by
  rcases List.eq_nil_or_concat place with rfl | ⟨init, name, rfl⟩
  · simp [shared_nil]
  · rw [List.concat_eq_append, List.dropLast_concat, shared_concat]
    have bound := shared_le init components
    simp only [List.length_append, List.length_singleton]
    split <;> omega

theorem shared_eq_length_iff (place components : List Str) : shared place components = components.length ↔ components <+: place := by
  fun_induction shared place components with
  | case1 name place components ih => simp [ih]
  | case2 name place component components other =>
    simp [List.cons_prefix_cons, Ne.symm other]
  | case3 place components none =>
    cases components with
    | nil => simp
    | cons component components =>
      cases place with
      | nil => simp
      | cons first place => exact absurd rfl (none first place component components rfl)

theorem shared_le_length (place components : List Str) : shared place components ≤ components.length := by
  fun_induction shared place components with
  | case1 name place components ih =>
    rw [List.length_cons]
    omega
  | case2 name place component components other => omega
  | case3 place components _ => omega

end GekkoFwd.Proofs.PathText
