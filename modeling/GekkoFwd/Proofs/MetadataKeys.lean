import GekkoFwd.Proofs.MergeLaws

/-! When a metadata key stays readable. Updates append operands blindly, and a size
operand that comes before the creation of its key makes the merge operator fail from
then on; where every size operand finds its key, every read succeeds. -/

namespace GekkoFwd.Proofs.MetadataKeys
open MergeLaws MetadataDb

/-- The calls a daemon makes on its database. Values are the text of metadata. -/
inductive Call where
  | put (key : Str) (md : Metadata) (recorded : Recorded md)
  | remove (key : Str)
  | increaseSize (key : Str) (size : Word) (append : Bool)
  | decreaseSize (key : Str) (size : Word)
  | update (oldKey newKey : Str) (md : Metadata) (recorded : Recorded md)

namespace Call

/-- The database after a call. A `put` whose assertion fails has no effect. -/
def apply (ndebug : Bool) (db : MetadataDb) : Call → MetadataDb
  | .put key md _ =>
    match db.put ndebug key (md.serialize .default) with
    | .ok stored => stored
    | .error _ => db
  | .remove key => db.remove key
  | .increaseSize key size append => db.increaseSize key size append
  | .decreaseSize key size => db.decreaseSize key size
  | .update oldKey newKey md _ => db.update oldKey newKey (md.serialize .default)

/-- A size is changed only while the key has a value, and with assertions it is
decreased only below the size it has. -/
def Lawful (ndebug : Bool) (db : MetadataDb) : Call → Prop
  | .put _ _ _ => True
  | .remove _ => True
  | .increaseSize key _ _ => ∃ value, db.get .default ndebug key = .ok value
  | .decreaseSize key size => ∃ md : Metadata, db.get .default ndebug key = .ok (md.serialize .default) ∧
      (ndebug = true ∨ size < md.size)
  | .update _ _ _ _ => True

end Call

/-- Every key has a value or is not found, and has one once metadata has been put. -/
structure Readable (ndebug : Bool) (db : MetadataDb) : Prop where
  get : ∀ key, (∃ value, db.get .default ndebug key = .ok value) ∨ db.get .default ndebug key = .error .notFound
  put : ∀ key md stored, Recorded md → db.put ndebug key (md.serialize .default) = .ok stored →
    ∃ value, stored.get .default ndebug key = .ok value

/-- Every key of the database stands for some metadata. -/
def Sound (ndebug : Bool) (db : MetadataDb) : Prop :=
  ∀ key cell, db.lookup key = some cell → ∃ md, Holds ndebug (fun _ => True) cell md

variable {ndebug : Bool} {db : MetadataDb}

/-- A key that can be read stands for the metadata whose text is returned. -/
theorem Sound.of_get (sound : Sound ndebug db) {key value : Str} (read : db.get .default ndebug key = .ok value) :
    ∃ md, Holds ndebug (fun _ => True) (db.cell key) md ∧ value = md.serialize .default := by
  cases found : db.lookup key with
  | none =>
    rw [get_of_lookup_none found] at read
    cases read
  | some cell =>
    obtain ⟨md, holds⟩ := sound key cell found
    rw [MetadataDb.get, cell_of_lookup found, holds.value] at read
    exact ⟨md, cell_of_lookup found ▸ holds, (Except.ok.inj read).symm⟩

theorem Sound.merge (sound : Sound ndebug db) {key : Str} {operand : MergeOperand} {md : Metadata} {size : Word}
    (holds : Holds ndebug (fun _ => True) (db.cell key) md) (applied : effect ndebug md.size operand = .ok size) :
    Sound ndebug (db.merge key operand) := by
  intro other cell found
  rw [MetadataDb.lookup_merge] at found
  split at found
  next =>
    cases found
    exact ⟨_, holds.merge applied trivial⟩
  next => exact sound other cell found

theorem sound_create (sound : Sound ndebug db) (key : Str) {md : Metadata} (recorded : Recorded md) :
    Sound ndebug (db.merge key (.create (md.serialize .default))) := by
  cases found : db.lookup key with
  | some cell =>
    obtain ⟨before, holds⟩ := sound key cell found
    exact sound.merge (cell_of_lookup found ▸ holds) rfl
  | none =>
    intro other cell read
    rw [MetadataDb.lookup_merge] at read
    split at read
    next =>
      cases read
      rw [MetadataDb.cell, found]
      exact ⟨md, .created recorded⟩
    next => exact sound other cell read

theorem Sound.apply (sound : Sound ndebug db) {call : Call} (lawful : call.Lawful ndebug db) :
    Sound ndebug (call.apply ndebug db) := by
  cases call with
  | put key md recorded =>
    rw [Call.apply]
    split
    next returned => rw [put_eq_ok returned]; exact sound_create sound key recorded
    next => exact sound
  | remove key =>
    intro other cell found
    rw [Call.apply, MetadataDb.lookup_remove] at found
    split at found
    next => cases found
    next => exact sound other cell found
  | increaseSize key size append =>
    obtain ⟨value, read⟩ := lawful
    obtain ⟨md, holds, _⟩ := sound.of_get read
    exact sound.merge holds rfl
  | decreaseSize key size =>
    obtain ⟨value, read, fits⟩ := lawful
    obtain ⟨md, holds, same⟩ := sound.of_get read
    refine @Sound.merge _ _ sound key (.decreaseSize size) md size holds ?_
    rw [size_of_serialize_eq same] at fits
    rcases fits with rfl | less
    · rfl
    · simp [effect, less, bind, Except.bind, pure, Except.pure]
  | update oldKey newKey md recorded =>
    intro other cell found
    rw [Call.apply, MetadataDb.lookup_update] at found
    split at found
    next =>
      cases found
      exact ⟨md, .put recorded⟩
    next =>
      split at found
      next => cases found
      next => exact sound other cell found

theorem Sound.readable (sound : Sound ndebug db) : Readable ndebug db := by
  have get : ∀ {db : MetadataDb}, Sound ndebug db → ∀ {key cell}, db.lookup key = some cell →
      ∃ value, db.get .default ndebug key = .ok value := by
    intro db sound key cell found
    obtain ⟨md, holds⟩ := sound key cell found
    exact ⟨_, by rw [MetadataDb.get, cell_of_lookup found, holds.value]⟩
  refine ⟨fun key => ?_, fun key md stored recorded returned => ?_⟩
  · cases found : db.lookup key with
    | none => exact .inr (get_of_lookup_none found)
    | some cell => exact .inl (get sound found)
  · have created := sound_create sound key recorded
    rw [put_eq_ok returned]
    exact get created (by rw [MetadataDb.lookup_merge, if_pos rfl])

/-- The databases that lawful calls lead to. -/
inductive Reached (ndebug : Bool) : MetadataDb → Prop where
  | fresh : Reached ndebug ∅
  | call {db : MetadataDb} {call : Call} (before : Reached ndebug db) (lawful : call.Lawful ndebug db) :
      Reached ndebug (call.apply ndebug db)

theorem Reached.sound (reached : Reached ndebug db) : Sound ndebug db := by
  induction reached with
  | fresh => exact fun key cell found => absurd found (by simp)
  | call _ lawful ih => exact ih.apply lawful

theorem not_readable_of_error {key : Str} {error : Exn} (failed : db.get .default ndebug key = .error error)
    (other : error ≠ .notFound) : ¬Readable ndebug db := by
  intro readable
  rcases readable.get key with ⟨value, read⟩ | missing
  · rw [failed] at read
    cases read
  · exact other (Except.error.inj (failed.symm.trans missing))

/-- The merge operator fails on a size operand that has nothing to apply to. -/
theorem not_readable_of_first {key : Str} {operand : MergeOperand} (missing : db.lookup key = none)
    (notCreate : operand.id ≠ 'c') : ¬Readable ndebug (db.merge key operand) := by
  have cell : (db.merge key operand).cell key = ⟨none, [operand.serialize]⟩ := by
    rw [MetadataDb.cell, MetadataDb.lookup_merge, if_pos rfl, MetadataDb.cell, missing]
    rfl
  refine @not_readable_of_error _ _ key .runtimeError ?_ (by decide)
  rw [MetadataDb.get, cell]
  simp [Cell.value, MetadataMergeOperator.fullMergeV2, MetadataMergeOperator.mergeStart, getId_serialize, notCreate, bind,
    Except.bind]

/-- With assertions it also fails on a decrease that does not make the size smaller. -/
theorem not_readable_of_decrease {key : Str} {size : Word} {md : Metadata} (holds : Holds false (fun _ => True) (db.cell key) md)
    (larger : ¬size < md.size) : ¬Readable false (db.decreaseSize key size) := by
  have cell : (db.decreaseSize key size).cell key = (db.cell key).merge (MergeOperand.decreaseSize size).serialize := by
    rw [MetadataDb.cell, MetadataDb.decreaseSize, MetadataDb.lookup_merge, if_pos rfl, Option.getD_some]
  refine @not_readable_of_error _ _ key .assertion ?_ (by decide)
  rw [MetadataDb.get, cell, value_of_pending (by simp [Cell.merge]), folded_merge holds.started, holds.folded]
  simp [applyOperand_serialize, effect, larger, assertThat, bind, Except.bind]

theorem lawful_of_readable (sound : Sound ndebug db) {call : Call} (readable : Readable ndebug (call.apply ndebug db)) :
    call.Lawful ndebug db := by
  cases call with
  | put | remove | update => trivial
  | increaseSize key size append =>
    cases found : db.lookup key with
    | none => exact absurd readable (not_readable_of_first found (show 'i' ≠ 'c' by decide))
    | some cell =>
      obtain ⟨md, holds⟩ := sound key cell found
      exact ⟨_, by rw [MetadataDb.get, cell_of_lookup found, holds.value]⟩
  | decreaseSize key size =>
    cases found : db.lookup key with
    | none => exact absurd readable (not_readable_of_first found (show 'd' ≠ 'c' by decide))
    | some cell =>
      obtain ⟨md, holds⟩ := sound key cell found
      refine ⟨md, by rw [MetadataDb.get, cell_of_lookup found, holds.value], ?_⟩
      cases ndebug with
      | true => exact .inl rfl
      | false =>
        right
        by_contra larger
        exact not_readable_of_decrease (cell_of_lookup found ▸ holds) larger readable

/-- As long as sizes are changed lawfully no key is ever poisoned, and the first
unlawful change poisons one. -/
theorem readable_iff_lawful_calls (reached : Reached ndebug db) :
    Readable ndebug db ∧ ∀ call : Call, Readable ndebug (call.apply ndebug db) ↔ call.Lawful ndebug db :=
  ⟨reached.sound.readable, fun _ => ⟨lawful_of_readable reached.sound, fun lawful => (reached.sound.apply lawful).readable⟩⟩

/-- A write to a descriptor whose file has been removed, and a new file with its name. -/
def lateWrite : List Call :=
  [.increaseSize "/file".toList 5 false,
   .put "/file".toList (Metadata.ofMode Mode.ifreg) (recorded_ofMode _)]

theorem late_write_poisons : ¬Readable true (lateWrite.foldl (Call.apply true) ∅) :=
  @not_readable_of_error _ _ "/file".toList .runtimeError rfl (by decide)

/-- A file is created, grows and shrinks. -/
theorem readable_iff_lawful_calls_file :
    Readable false ([Call.put "/file".toList (Metadata.ofMode Mode.ifreg) (recorded_ofMode _),
      .increaseSize "/file".toList 9 false, .decreaseSize "/file".toList 4].foldl (Call.apply false) ∅) := by
  have created : Reached false (Call.apply false ∅ (.put "/file".toList (Metadata.ofMode Mode.ifreg)
    (recorded_ofMode _))) := .call .fresh trivial
  have grown := created.call (show (Call.increaseSize "/file".toList 9 false).Lawful _ _ from ⟨_, rfl⟩)
  have shrunk := grown.call (show (Call.decreaseSize "/file".toList 4).Lawful _ _ from
    ⟨{ Metadata.ofMode Mode.ifreg with size := 9 }, rfl, .inr (by decide)⟩)
  exact (readable_iff_lawful_calls shrunk).1

end GekkoFwd.Proofs.MetadataKeys
