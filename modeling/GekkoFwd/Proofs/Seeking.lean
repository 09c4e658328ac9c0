import GekkoFwd.Lib.Words
import GekkoFwd.FileOps

/-! Where `gkfs_lseek` leaves the position of an open file. The position is unsigned,
the offset is signed, and the returned value is the new position read back. -/

namespace GekkoFwd.Proofs.Seeking
open RpcProgram FileOps

section Calls
variable {σ : Type} {deployment : Deployment} (server : Server Request σ) (client : Client deployment)

/-- The daemon's answer to the query for the size of a file. -/
def sizeAnswer (state : σ) (path : Str) : Option (Int × Word) :=
  (server.handle (client.locateFileMetadata path) (.getMetadentrySize path) state).1

/-- The place that a seek asks for. There is none when the whence is not supported or
the size is not known. -/
def wanted (state : σ) (file : OpenFile) (offset : Word) : Whence → Option Int
  | .seekSet => some offset.toInt
  | .seekCur => some (file.pos.toNat + offset.toInt)
  | .seekEnd =>
    (sizeAnswer server client state file.path).bind fun (err, size) => if err = 0 then some (size.toInt + offset.toInt) else none
  | .other => none

/-- The places that a position can have. -/
def InFile (place : Int) : Prop := 0 ≤ place ∧ place < 2 ^ 63

instance (place : Int) : Decidable (InFile place) := inferInstanceAs (Decidable (_ ∧ _))

/-- The wanted place is returned and becomes the position, or -1 is returned and
nothing changes. -/
def AllOrNothing (state : σ) (file : OpenFile) (offset : Word) (whence : Whence) (ret : Int) (after : OpenFile) : Prop :=
  match (wanted server client state file offset whence).filter fun place => InFile place with
  | some place => ret = place ∧ after = { file with pos := .ofInt 64 place }
  | none => ret = -1 ∧ after = file

/-- The only check on the place: the offset goes back by more than the size. It misses
the least offset, whose negation is itself. -/
def Refused (size offset : Word) : Prop := -2 ^ 63 < offset.toInt ∧ offset.toInt < 0 ∧ size.toInt + offset.toInt < 0

/-- The seeks for which the missing checks make no difference. -/
def Checked (state : σ) (file : OpenFile) (offset : Word) : Whence → Prop
  | .seekSet => 0 ≤ offset.toInt
  | .seekCur => InFile (file.pos.toNat + offset.toInt)
  | .seekEnd =>
    match sizeAnswer server client state file.path with
    | some (err, size) => err < 0 ∨ Refused size offset ∨ err = 0 ∧ InFile (size.toInt + offset.toInt)
    | none => True
  | .other => True

/-- Seeks of one client, among whatever else happens to the daemons. -/
inductive Seeks : OpenFile → OpenFile → Prop where
  | done {file} : Seeks file file
  | seek {file between last} {state after : σ} {offset : Word} {whence : Whence} {outcome : Outcome}
      (checked : Checked server client state file offset whence)
      (ran : server.exec (gkfsLseek client file offset whence) state = (some (outcome, between), after))
      (rest : Seeks between last) : Seeks file last

end Calls

theorem toInt_neg_eq {offset : Word} (low : -2 ^ 63 < offset.toInt) : (-offset).toInt = -offset.toInt := by
  have sign := Words.toInt_cases (w := 63) offset
  have negated := Words.toInt_cases (w := 63) (-offset)
  rw [BitVec.toNat_neg] at negated
  omega

theorem refused_iff (size offset : Word) : (offset.slt 0 && size.slt (-offset)) = true ↔ Refused size offset := by
  rw [Bool.and_eq_true, BitVec.slt_iff_toInt_lt, BitVec.slt_iff_toInt_lt, show (0 : Word).toInt = 0 from rfl, Refused]
  have sizes := Words.toInt_cases (w := 63) size
  have offsets := Words.toInt_cases (w := 63) offset
  by_cases low : -2 ^ 63 < offset.toInt
  · rw [toInt_neg_eq low]
    omega
  · have least : offset = BitVec.intMin 64 := by
      apply BitVec.eq_of_toNat_eq
      rw [BitVec.toNat_intMin]
      omega
    rw [least, BitVec.neg_intMin, BitVec.toInt_intMin]
    omega

theorem stored_ne_kept {file : OpenFile} (inRange : file.pos.toNat < 2 ^ 63) (word : Word) :
    ¬(word.toInt = -1 ∧ { file with pos := word } = file) := by
  rintro ⟨negative, same⟩
  have kept : file.pos = word := (congrArg OpenFile.pos same).symm
  rw [kept] at inRange
  have sign := Words.toInt_cases (w := 63) word
  omega

theorem toInt_ofInt_inFile {place : Int} (inFile : InFile place) : (BitVec.ofInt 64 place).toInt = place := by
  refine BitVec.toInt_ofInt_eq_self (by decide) ?_ inFile.2
  exact Int.le_trans (by decide) inFile.1

section Steps
variable {σ : Type} {deployment : Deployment} {server : Server Request σ} {client : Client deployment} {state : σ}
  {file : OpenFile} {offset : Word} {whence : Whence}

/-- A position that is stored unchecked is right when the wanted place can be one. -/
theorem allOrNothing_stored (inRange : file.pos.toNat < 2 ^ 63) {place : Int} {word : Word}
    (asks : wanted server client state file offset whence = some place) (same : word = .ofInt 64 place) :
    AllOrNothing server client state file offset whence word.toInt { file with pos := word } ↔ InFile place := by
  subst same
  rw [AllOrNothing, asks, Option.filter_some]
  by_cases inFile : InFile place
  · rw [if_pos (decide_eq_true inFile)]
    exact iff_of_true ⟨toInt_ofInt_inFile inFile, rfl⟩ inFile
  · rw [if_neg (by simpa using inFile)]
    exact iff_of_false (stored_ne_kept inRange _) inFile

theorem not_allOrNothing_stored (inRange : file.pos.toNat < 2 ^ 63) {word : Word}
    (asks : wanted server client state file offset whence = none) :
    ¬AllOrNothing server client state file offset whence word.toInt { file with pos := word } := by
  rw [AllOrNothing, asks]
  exact stored_ne_kept inRange word

theorem allOrNothing_kept (asks : ∀ place, wanted server client state file offset whence = some place → ¬InFile place) :
    AllOrNothing server client state file offset whence (-1) file := by
  rw [AllOrNothing]
  cases found : wanted server client state file offset whence with
  | none => exact ⟨rfl, rfl⟩
  | some place =>
    rw [Option.filter_some, if_neg (by simpa using asks place found)]
    exact ⟨rfl, rfl⟩

theorem exec_forwardGetMetadentrySize (path : Str) :
    (server.exec (ClientOps.forwardGetMetadentrySize client path) state).1 =
      some ((sizeAnswer server client state path).getD (Errno.eunknown, 0)) := by
  simp only [ClientOps.forwardGetMetadentrySize, Program.bind_eq, Program.call_bind, Server.exec_post_one, List.headD_cons]
  unfold sizeAnswer
  cases (server.handle (client.locateFileMetadata path) (.getMetadentrySize path) state).1 with
  | none => rfl
  | some answer => rfl

theorem exec_seekEnd (err : Int) (size : Word)
    (answered : (sizeAnswer server client state file.path).getD (Errno.eunknown, 0) = (err, size)) :
    (server.exec (gkfsLseek client file offset .seekEnd) state).1 = some (
      if err < 0 then (⟨-1, some err⟩, file)
      else if offset.slt 0 && size.slt (-offset) then (⟨-1, some Errno.einval⟩, file)
      else (⟨(size + offset).toInt, none⟩, { file with pos := size + offset })) := by
  have query : (server.exec (ClientOps.forwardGetMetadentrySize client file.path) state).1 = some (err, size) := by
    rw [exec_forwardGetMetadentrySize, answered]
  rw [gkfsLseek, Program.bind_eq, Server.exec_bind]
  cases ran : server.exec (ClientOps.forwardGetMetadentrySize client file.path) state with
  | mk value between =>
    rw [ran] at query
    cases query
    dsimp only
    split <;> [rfl; (split <;> rfl)]

theorem wanted_seekEnd {err : Int} {size : Word} (answered : sizeAnswer server client state file.path = some (err, size)) :
    wanted server client state file offset .seekEnd = if err = 0 then some (size.toInt + offset.toInt) else none := by
  rw [wanted, answered, Option.bind_some]

theorem allOrNothing_seekEnd (inRange : file.pos.toNat < 2 ^ 63) {outcome : Outcome} {after : OpenFile}
    (ran : (server.exec (gkfsLseek client file offset .seekEnd) state).1 = some (outcome, after)) :
    AllOrNothing server client state file offset .seekEnd outcome.ret after ↔ Checked server client state file offset .seekEnd := by
  rw [Checked]
  cases answered : sizeAnswer server client state file.path with
  | none =>
    rw [exec_seekEnd Errno.eunknown 0 (by rw [answered]; rfl), if_pos (by decide)] at ran
    cases ran
    refine iff_of_true (allOrNothing_kept fun place asks => ?_) trivial
    rw [wanted, answered] at asks
    cases asks
  | some answer =>
    obtain ⟨err, size⟩ := answer
    rw [exec_seekEnd err size (by rw [answered]; rfl)] at ran
    have asked : wanted server client state file offset .seekEnd = if err = 0 then some (size.toInt + offset.toInt) else none :=
      wanted_seekEnd answered
    by_cases negative : err < 0
    · rw [if_pos negative] at ran
      cases ran
      refine iff_of_true (allOrNothing_kept fun place asks => ?_) (.inl negative)
      rw [asked, if_neg (Int.ne_of_lt negative)] at asks
      cases asks
    rw [if_neg negative] at ran
    by_cases refused : Refused size offset
    · rw [if_pos ((refused_iff size offset).mpr refused)] at ran
      cases ran
      refine iff_of_true (allOrNothing_kept fun place asks inFile => ?_) (.inr (.inl refused))
      obtain ⟨_, same⟩ := Option.ite_none_right_eq_some.mp (asked.symm.trans asks)
      cases same
      exact absurd inFile.1 (Int.not_le.mpr refused.2.2)
    rw [if_neg ((refused_iff size offset).not.mpr refused)] at ran
    cases ran
    dsimp only
    rw [or_iff_right negative, or_iff_right refused]
    by_cases fine : err = 0
    · rw [and_iff_right fine]
      refine allOrNothing_stored inRange (asked.trans (if_pos fine)) ?_
      rw [BitVec.ofInt_add, BitVec.ofInt_toInt, BitVec.ofInt_toInt]
    · exact iff_of_false (not_allOrNothing_stored inRange (asked.trans (if_neg fine))) fun ⟨zero, _⟩ => fine zero

/-- A seek keeps to its contract exactly when the checks that are missing would pass. -/
theorem allOrNothing_iff_checked (inRange : file.pos.toNat < 2 ^ 63) {outcome : Outcome} {after : OpenFile}
    (ran : (server.exec (gkfsLseek client file offset whence) state).1 = some (outcome, after)) :
    AllOrNothing server client state file offset whence outcome.ret after ↔ Checked server client state file offset whence := by
  cases whence with
  | seekSet =>
    cases ran
    rw [allOrNothing_stored inRange rfl BitVec.ofInt_toInt.symm, InFile, Checked]
    exact and_iff_left (BitVec.toInt_lt (w := 64))
  | seekCur =>
    cases ran
    refine allOrNothing_stored inRange rfl ?_
    rw [BitVec.ofInt_add, BitVec.ofInt_natCast, BitVec.ofNat_toNat, BitVec.ofInt_toInt, BitVec.setWidth_eq]
  | seekEnd => exact allOrNothing_seekEnd inRange ran
  | other =>
    cases ran
    exact iff_of_true (allOrNothing_kept nofun) trivial

theorem pos_of_allOrNothing (inRange : file.pos.toNat < 2 ^ 63) {ret : Int} {after : OpenFile}
    (kept : AllOrNothing server client state file offset whence ret after) : after.pos.toNat < 2 ^ 63 := by
  rw [AllOrNothing] at kept
  split at kept
  next place found =>
    obtain ⟨_, rfl⟩ := kept
    have inFile : InFile place := of_decide_eq_true (Option.filter_eq_some_iff.mp found).2
    have read := toInt_ofInt_inFile inFile
    have sign := Words.toInt_cases (w := 63) (BitVec.ofInt 64 place)
    have bounds := inFile.1
    show (BitVec.ofInt 64 place).toNat < 2 ^ 63
    omega
  next =>
    obtain ⟨_, rfl⟩ := kept
    exact inRange

theorem pos_of_seeks {last : OpenFile} (seeks : Seeks server client file last) (inRange : file.pos.toNat < 2 ^ 63) :
    last.pos.toNat < 2 ^ 63 := by
  induction seeks with
  | done => exact inRange
  | seek checked ran rest ih =>
    exact ih (pos_of_allOrNothing inRange ((allOrNothing_iff_checked inRange (congrArg Prod.fst ran)).mpr checked))

end Steps

theorem exists_ran {σ : Type} {deployment : Deployment} (server : Server Request σ) (client : Client deployment) (state : σ)
    (file : OpenFile) (offset : Word) (whence : Whence) :
    ∃ outcome after, (server.exec (gkfsLseek client file offset whence) state).1 = some (outcome, after) := by
  cases whence with
  | seekSet | seekCur | other => exact ⟨_, _, rfl⟩
  | seekEnd => exact ⟨_, _, exec_seekEnd _ _ rfl⟩

/-- A seek is all or nothing exactly when the place it asks for passes the checks that
`gkfs_lseek` leaves out, and over any sequence of such seeks the position stays one. -/
theorem lseek_all_or_nothing_iff {σ : Type} {deployment : Deployment} (server : Server Request σ) (client : Client deployment)
    (file : OpenFile) (inRange : file.pos.toNat < 2 ^ 63) :
    (∀ (state : σ) (offset : Word) (whence : Whence), ∃ outcome after,
      (server.exec (gkfsLseek client file offset whence) state).1 = some (outcome, after) ∧
      (AllOrNothing server client state file offset whence outcome.ret after ↔ Checked server client state file offset whence)) ∧
    ∀ last, Seeks server client file last → last.pos.toNat < 2 ^ 63 := by
  refine ⟨fun state offset whence => ?_, fun last seeks => pos_of_seeks seeks inRange⟩
  obtain ⟨outcome, after, ran⟩ := exists_ran server client state file offset whence
  exact ⟨outcome, after, ran, allOrNothing_iff_checked inRange ran⟩

/-- Daemons that give every file the same size. -/
def sized (reply : Option (Int × Word)) : Server Request Unit where
  handle _ request state :=
    match request with
    | .getMetadentrySize _ => (reply, state)
    | _ => (none, state)

/-- A file at its beginning. -/
def rewound : OpenFile := .opened "/file".toList

/-- A client of two daemons. -/
def seeker : Client (.pair List.length) := .first _

/-- Four bytes before the end of a file of ten. -/
theorem lseek_all_or_nothing_iff_tail :
    rewound.pos.toNat < 2 ^ 63 ∧ ∃ outcome after,
      ((sized (some (0, 10))).exec (gkfsLseek seeker rewound (-4) .seekEnd) ()).1 = some (outcome, after) ∧
      AllOrNothing (sized (some (0, 10))) seeker () rewound (-4) .seekEnd outcome.ret after := by
  have inRange : rewound.pos.toNat < 2 ^ 63 := by decide
  refine ⟨inRange, ?_⟩
  obtain ⟨outcome, after, ran, iff⟩ := (lseek_all_or_nothing_iff (sized (some (0, 10))) seeker rewound inRange).1 () (-4) .seekEnd
  exact ⟨outcome, after, ran, iff.mpr (.inr (.inr ⟨rfl, by decide⟩))⟩

/-- A negative offset becomes the position while -1 is returned. A file that is gone has
an end all the same, since its `ENOENT` is positive. -/
theorem negative_position_stored :
    ((sized none).exec (gkfsLseek seeker rewound (-1) .seekSet) ()).1 = some (⟨-1, none⟩, { rewound with pos := -1 }) ∧
    ¬AllOrNothing (sized none) seeker () rewound (-1) .seekSet (-1) { rewound with pos := -1 } ∧
    ((sized (some (Errno.enoent, 0))).exec (gkfsLseek seeker rewound 5 .seekEnd) ()).1 = some (⟨5, none⟩, { rewound with pos := 5 }) ∧
    ¬AllOrNothing (sized (some (Errno.enoent, 0))) seeker () rewound 5 .seekEnd 5 { rewound with pos := 5 } := by
  refine ⟨rfl, ?_, rfl, ?_⟩
  · intro kept
    exact absurd (congrArg OpenFile.pos kept.2) (by decide)
  · intro kept
    exact absurd kept.1 (by decide)

end GekkoFwd.Proofs.Seeking
