import GekkoFwd.Lib.LocalFs

/-! The part of an association list that some of the keys have. An operation that is
confined to keys may be run on the part instead of the whole, and does not show in a part
without them. File trees are such lists; each call on a path is confined to the top
directory and what lies below the first name of the path. -/

namespace KeyPart

section Lists
variable {κ : Type*} {β : κ → Type*}

theorem nodupKeys_filter (keep : κ → Bool) {entries : List (Sigma β)} (distinct : entries.NodupKeys) :
    (entries.filter fun entry => keep entry.1).NodupKeys :=
  distinct.sublist List.filter_sublist

/-- The entries whose keys are kept, in their order. -/
def part (keep : κ → Bool) (list : AList β) : AList β :=
  ⟨list.entries.filter fun entry => keep entry.1, nodupKeys_filter keep list.nodupKeys⟩

variable {keep : κ → Bool}

theorem entries_part (keep : κ → Bool) (list : AList β) :
    (part keep list).entries = list.entries.filter fun entry => keep entry.1 := rfl

theorem keys_part (keep : κ → Bool) (list : AList β) : (part keep list).keys = list.keys.filter keep :=
  List.filter_map.symm

variable [DecidableEq κ]

private theorem filter_kerase (entries : List (Sigma β)) {key : κ} (kept : keep key = true) :
    (entries.kerase key).filter (fun entry => keep entry.1) = (entries.filter fun entry => keep entry.1).kerase key := by
  induction entries with
  | nil => rfl
  | cons entry entries ih =>
    by_cases same : key = entry.1
    · rw [List.kerase_cons_eq same, List.filter_cons_of_pos (by rw [← same]; exact kept), List.kerase_cons_eq same]
    · rw [List.kerase_cons_ne same, List.filter_cons, List.filter_cons, ih]
      split
      next => rw [List.kerase_cons_ne same]
      next => rfl

private theorem filter_kerase_of_not (entries : List (Sigma β)) {key : κ} (dropped : keep key = false) :
    (entries.kerase key).filter (fun entry => keep entry.1) = entries.filter fun entry => keep entry.1 := by
  induction entries with
  | nil => rfl
  | cons entry entries ih =>
    by_cases same : key = entry.1
    · rw [List.kerase_cons_eq same, List.filter_cons_of_neg (by rw [← same, dropped]; decide)]
    · rw [List.kerase_cons_ne same, List.filter_cons, List.filter_cons, ih]

theorem part_erase (list : AList β) {key : κ} (kept : keep key = true) : part keep (list.erase key) = (part keep list).erase key :=
  AList.ext (filter_kerase list.entries kept)

theorem part_erase_of_not (list : AList β) {key : κ} (dropped : keep key = false) : part keep (list.erase key) = part keep list :=
  AList.ext (filter_kerase_of_not list.entries dropped)

theorem part_insert (list : AList β) {key : κ} (value : β key) (kept : keep key = true) :
    part keep (list.insert key value) = (part keep list).insert key value := by
  apply AList.ext
  rw [AList.entries_insert, entries_part, entries_part, AList.entries_insert, List.filter_cons, if_pos kept, filter_kerase _ kept]

theorem part_insert_of_not (list : AList β) {key : κ} (value : β key) (dropped : keep key = false) :
    part keep (list.insert key value) = part keep list := by
  apply AList.ext
  rw [entries_part, entries_part, AList.entries_insert, List.filter_cons_of_neg (by rw [dropped]; decide),
    filter_kerase_of_not _ dropped]

theorem lookup_part (list : AList β) {key : κ} (kept : keep key = true) : (part keep list).lookup key = list.lookup key := by
  have found : ∀ value, (part keep list).lookup key = some value ↔ list.lookup key = some value := by
    intro value
    rw [← Option.mem_def, ← Option.mem_def, AList.mem_lookup_iff, AList.mem_lookup_iff, entries_part, List.mem_filter]
    exact and_iff_left kept
  exact Option.ext found

/-- The operation looks at nothing but the given keys and changes no others than those in
`writes`. -/
structure Confined {γ : Type*} (reads writes : κ → Prop) (op : AList β → γ × AList β) : Prop where
  inside : ∀ keep : κ → Bool, (∀ key, reads key ∨ writes key → keep key = true) →
    ∀ list, op (part keep list) = ((op list).1, part keep (op list).2)
  outside : ∀ keep : κ → Bool, (∀ key, writes key → keep key = false) → ∀ list, part keep (op list).2 = part keep list

namespace Confined
variable {γ δ : Type*} {reads writes : κ → Prop} {op : AList β → γ × AList β}

omit [DecidableEq κ] in
theorem pure (value : γ) : Confined reads writes fun list : AList β => (value, list) :=
  ⟨fun _ _ _ => rfl, fun _ _ _ => rfl⟩

omit [DecidableEq κ] in
theorem congr {other : AList β → γ × AList β} (confined : Confined reads writes op) (same : ∀ list, other list = op list) :
    Confined reads writes other :=
  (funext same : other = op) ▸ confined

omit [DecidableEq κ] in
theorem bind {next : γ → AList β → δ × AList β} (first : Confined reads writes op) (later : ∀ value, Confined reads writes (next value)) :
    Confined reads writes fun list => next (op list).1 (op list).2 := by
  refine ⟨fun keep kept list => ?_, fun keep dropped list => ?_⟩
  · rw [first.inside keep kept]
    exact (later _).inside keep kept _
  · rw [(later _).outside keep dropped, first.outside keep dropped]

omit [DecidableEq κ] in
/-- An operation that may fail, and what follows when it does not. -/
theorem onOk {ω : Type*} {op : AList β → Except ω γ × AList β} (fails : ω → δ) {next : γ → AList β → δ × AList β}
    (first : Confined reads writes op) (later : ∀ value, Confined reads writes (next value)) :
    Confined reads writes fun list =>
      match op list with
      | (.error error, after) => (fails error, after)
      | (.ok value, after) => next value after := by
  let proceed : Except ω γ → AList β → δ × AList β := fun result after =>
    match result with
    | .error error => (fails error, after)
    | .ok value => next value after
  have proceeds : ∀ result, Confined reads writes (proceed result) := by
    intro result
    cases result with
    | error error => exact pure _
    | ok value => exact later value
  refine (first.bind proceeds).congr fun list => ?_
  rcases op list with ⟨_ | _, _⟩ <;> rfl

omit [DecidableEq κ] in
theorem map (f : γ → δ) (confined : Confined reads writes op) : Confined reads writes fun list => (f (op list).1, (op list).2) :=
  confined.bind fun value => pure (f value)

omit [DecidableEq κ] in
/-- An operation that leaves the same state, with an answer that is made from the other's. -/
theorem answer {other : AList β → δ × AList β} (confined : Confined reads writes op) (state : ∀ list, (other list).2 = (op list).2)
    (determined : ∀ list list', (op list).1 = (op list').1 → (other list).1 = (other list').1) : Confined reads writes other := by
  refine ⟨fun keep kept list => ?_, fun keep dropped list => ?_⟩
  · have inside := confined.inside keep kept list
    refine Prod.ext (determined _ _ (by rw [inside])) ?_
    rw [state, state, inside]
  · rw [state]
    exact confined.outside keep dropped list

omit [DecidableEq κ] in
theorem read {f : AList β → γ} (same : ∀ keep : κ → Bool, (∀ key, reads key ∨ writes key → keep key = true) →
    ∀ list, f (part keep list) = f list) : Confined reads writes fun list => (f list, list) :=
  ⟨fun keep kept list => by rw [same keep kept], fun _ _ _ => rfl⟩

theorem lookup (key : κ) (f : Option (β key) → γ) : Confined (· = key) writes fun list => (f (list.lookup key), list) :=
  read fun keep kept list => by rw [lookup_part list (kept key (.inl rfl))]

theorem insert (key : κ) (f : Option (β key) → β key) (value : γ) :
    Confined reads (· = key) fun list => (value, list.insert key (f (list.lookup key))) := by
  refine ⟨fun keep kept list => ?_, fun keep dropped list => part_insert_of_not list _ (dropped key rfl)⟩
  rw [lookup_part list (kept key (.inr rfl)), part_insert list _ (kept key (.inr rfl))]

theorem erase (key : κ) (value : γ) : Confined reads (· = key) fun list : AList β => (value, list.erase key) := by
  refine ⟨fun keep kept list => ?_, fun keep dropped list => part_erase_of_not list (dropped key rfl)⟩
  rw [part_erase list (kept key (.inr rfl))]

end Confined
end Lists

section Trees
open LocalFs

variable {ν β γ : Type}

def Top (path : List ν) : Prop := path = []

/-- The paths of a name in the top directory and of everything below it. -/
def Under (name : ν) (path : List ν) : Prop := path.head? = some name

theorem under_cons (name : ν) (rest : List ν) : Under name (name :: rest) := rfl

variable {χ : Type} [DecidableEq χ]

/-- An operation on what lies below one name. -/
abbrev ConfinedTo (name : List χ) (op : FileTree χ β → γ × FileTree χ β) : Prop := Confined Top (Under name) op

section Kept
variable {name : List χ} {keep : List (List χ) → Bool} (kept : ∀ path, Top path ∨ Under name path → keep path = true) (tree : FileTree χ β)
  (rest : List (List χ))
include kept

theorem get_part : FileTree.get (part keep tree) (name :: rest) = tree.get (name :: rest) :=
  lookup_part tree (kept _ (.inr (under_cons name rest)))

private theorem walk_part (parent path : List (List χ)) (inside : Under name (parent ++ path)) :
    FileTree.walk (part keep tree) parent path = tree.walk parent path := by
  induction path generalizing parent with
  | nil => rfl
  | cons next path ih =>
    have here : FileTree.get (part keep tree) parent = tree.get parent := by
      refine lookup_part tree (kept parent ?_)
      cases parent with
      | nil => exact .inl rfl
      | cons => exact .inr inside
    rw [FileTree.walk, FileTree.walk, here, ih (parent ++ [next]) (by simpa using inside)]

theorem find_part : FileTree.find (part keep tree) (name :: rest) = tree.find (name :: rest) := by
  rw [FileTree.find, FileTree.find, walk_part kept tree [] _ (under_cons name rest), get_part kept tree rest]

end Kept

/-- A call that changes the tree or fails. -/
def attempt (call : FileTree χ β → Except Errno (FileTree χ β)) (tree : FileTree χ β) : Except Errno Unit × FileTree χ β :=
  match call tree with
  | .ok after => (.ok (), after)
  | .error errno => (.error errno, tree)

/-- What a call does at its path. -/
inductive Change (β : Type) where
  | nothing
  | put (node : Node β)
  | drop

def Change.apply (path : List (List χ)) (tree : FileTree χ β) : Change β → FileTree χ β
  | .nothing => tree
  | .put node => tree.insert path node
  | .drop => tree.erase path

namespace Confined
variable (name : List χ) (rest : List (List χ))

/-- A call that decides by what it finds at its path, and changes that. -/
theorem attempt_of_find {call : FileTree χ β → Except Errno (FileTree χ β)}
    (decides : Except Errno (Option (Node β)) → Except Errno (Change β))
    (calls : ∀ tree : FileTree χ β, call tree = (decides (tree.find (name :: rest))).map (Change.apply (name :: rest) tree)) :
    ConfinedTo name (attempt call) := by
  refine ⟨fun keep kept tree => ?_, fun keep dropped tree => ?_⟩
  · have here := kept _ (.inr (under_cons name rest))
    rw [attempt, attempt, calls, calls, find_part kept tree rest]
    cases decides (FileTree.find tree (name :: rest)) with
    | error => rfl
    | ok change =>
      cases change with
      | nothing => rfl
      | put node => exact congrArg (Prod.mk _) (part_insert tree node here).symm
      | drop => exact congrArg (Prod.mk _) (part_erase tree here).symm
  · have away := dropped _ (under_cons name rest)
    rw [attempt, calls]
    cases decides (FileTree.find tree (name :: rest)) with
    | error => rfl
    | ok change =>
      cases change with
      | nothing => rfl
      | put node => exact part_insert_of_not tree node away
      | drop => exact part_erase_of_not tree away

omit [DecidableEq χ] in
variable {name} in
/-- A call of the file system that may fail, and what follows when it does not. -/
theorem onSuccess {call : FileTree χ β → Except Errno (FileTree χ β)} (fails : Errno → γ) {next : FileTree χ β → γ × FileTree χ β}
    (first : ConfinedTo name (attempt call)) (later : ConfinedTo name next) :
    ConfinedTo name fun tree =>
      match call tree with
      | .error errno => (fails errno, tree)
      | .ok after => next after := by
  refine (onOk fails first fun _ => later).congr fun tree => ?_
  rw [attempt]
  cases call tree <;> rfl

theorem mkdir : ConfinedTo name (attempt fun tree : FileTree χ β => tree.mkdir (name :: rest)) := by
  refine attempt_of_find name rest (fun found => found.bind fun node => if node.isSome then .error .eexist else .ok (.put .dir)) ?_
  intro tree
  rw [FileTree.mkdir]
  split <;> rename_i found <;> rw [found] <;> rfl

theorem openCreate : ConfinedTo name (attempt fun tree : FileTree χ β => tree.openCreate (name :: rest)) := by
  refine attempt_of_find name rest (fun found => found.bind fun node =>
    match node with
    | some .dir => .error .eisdir
    | some (.file _) => .ok .nothing
    | none => .ok (.put (.file []))) ?_
  intro tree
  rw [FileTree.openCreate]
  split <;> rename_i found <;> rw [found] <;> rfl

theorem unlink : ConfinedTo name (attempt fun tree : FileTree χ β => tree.unlink (name :: rest)) := by
  refine attempt_of_find name rest (fun found => found.bind fun node =>
    match node with
    | some (.file _) => .ok .drop
    | some .dir => .error .eisdir
    | none => .error .enoent) ?_
  intro tree
  rw [FileTree.unlink]
  split <;> rename_i found <;> rw [found] <;> rfl

theorem truncate [Zero β] (length : Nat) :
    ConfinedTo name (attempt fun tree : FileTree χ β => tree.truncate (name :: rest) length) := by
  refine attempt_of_find name rest (fun found => found.bind fun node =>
    match node with
    | some (.file content) => .ok (.put (.file (ByteFile.truncate content length)))
    | some .dir => .error .eisdir
    | none => .error .enoent) ?_
  intro tree
  rw [FileTree.truncate]
  split <;> rename_i found <;> rw [found] <;> rfl

theorem openRead : ConfinedTo name fun tree : FileTree χ β => (tree.openRead (name :: rest), tree) := by
  refine read fun keep kept tree => ?_
  rw [FileTree.openRead, FileTree.openRead, find_part kept tree rest]

theorem readdir : ConfinedTo name fun tree : FileTree χ β => (tree.readdir (name :: rest), tree) := by
  refine read fun keep kept tree => ?_
  rw [FileTree.readdir, FileTree.readdir, find_part kept tree rest]
  split
  next => rfl
  next =>
    rw [keys_part, List.filterMap_filter]
    refine congrArg Except.ok (List.filterMap_congr fun entry _ => ?_)
    -- an entry of the directory is kept with it
    by_cases member : entry.dropLast = name :: rest
    · have under : Under name entry := by
        cases entry with
        | nil => cases member
        | cons first entry =>
          cases entry with
          | nil => cases member
          | cons second entry => exact congrArg some (List.cons.inj member).1
      rw [if_pos (kept entry (.inr under))]
    · simp [member]
  next => rfl
  next => rfl

theorem pwrite [Zero β] (data : List β) (offset : Nat) (value : γ) :
    ConfinedTo name fun tree : FileTree χ β => (value, tree.pwrite (name :: rest) data offset) := by
  refine ⟨fun keep kept tree => ?_, fun keep dropped tree => ?_⟩
  · rw [FileTree.pwrite, FileTree.pwrite, get_part kept tree rest]
    split
    next => exact congrArg (Prod.mk _) (part_insert tree _ (kept _ (.inr (under_cons name rest)))).symm
    next => rfl
  · rw [FileTree.pwrite]
    split
    next => exact part_insert_of_not tree _ (dropped _ (under_cons name rest))
    next => rfl

private theorem part_foldl_erase {keep : List (List χ) → Bool} (kept : ∀ path, Under name path → keep path = true)
    (paths : List (List (List χ))) (under : ∀ path ∈ paths, Under name path) (tree : FileTree χ β) :
    part keep (paths.foldl (fun rest path => rest.erase path) tree) =
      paths.foldl (fun rest path => rest.erase path) (part keep tree) := by
  induction paths generalizing tree with
  | nil => rfl
  | cons path paths ih =>
    rw [List.foldl_cons, List.foldl_cons, ih fun other member => under other (List.mem_cons_of_mem _ member),
      part_erase tree (kept path (under path List.mem_cons_self))]

private theorem part_foldl_erase_of_not {keep : List (List χ) → Bool} (dropped : ∀ path, Under name path → keep path = false)
    (paths : List (List (List χ))) (under : ∀ path ∈ paths, Under name path) (tree : FileTree χ β) :
    part keep (paths.foldl (fun rest path => rest.erase path) tree) = part keep tree := by
  induction paths generalizing tree with
  | nil => rfl
  | cons path paths ih =>
    rw [List.foldl_cons, ih fun other member => under other (List.mem_cons_of_mem _ member),
      part_erase_of_not tree (dropped path (under path List.mem_cons_self))]

theorem removeAll (value : γ) : ConfinedTo name fun tree : FileTree χ β => (value, tree.removeAll (name :: rest)) := by
  have within : ∀ entry, (name :: rest).isPrefixOf entry = true → Under name entry := by
    intro entry below
    obtain ⟨more, rfl⟩ := List.isPrefixOf_iff_prefix.mp below
    rfl
  refine ⟨fun keep kept tree => ?_, fun keep dropped tree => ?_⟩
  · have same : (part keep tree).keys.filter (fun entry => (name :: rest).isPrefixOf entry) =
        tree.keys.filter fun entry => (name :: rest).isPrefixOf entry := by
      rw [keys_part, List.filter_filter]
      refine List.filter_congr fun entry _ => ?_
      cases below : (name :: rest).isPrefixOf entry with
      | false => rfl
      | true => rw [kept entry (.inr (within entry below))]; rfl
    rw [FileTree.removeAll, FileTree.removeAll, same,
      part_foldl_erase name (fun path under => kept path (.inr under)) _ fun entry member => within entry (List.mem_filter.mp member).2]
  · exact part_foldl_erase_of_not name dropped _ (fun entry member => within entry (List.mem_filter.mp member).2) tree

end Confined
end Trees
end KeyPart
