import GekkoFwd.FileOps
import GekkoFwd.Lib.Interleaving
import GekkoFwd.Proofs.ClientSpec

/-! The requests that the client's functions post. Whatever the hosts answer, a function sends
requests about its own path, and asks for the parent's type before it creates. -/

namespace GekkoFwd.Proofs.ClientRequests
open RpcProgram ClientOps

/-- The requests about the entry of a path that are the client's own. -/
structure EntryRequests {deployment : Deployment} (own : ∀ β, Nat → Request β → Prop) (client : Client deployment) (path : Str) : Prop where
  stat : own _ (client.locateFileMetadata path) (.stat path)
  parent : own _ (client.locateFileMetadata (Path.dirname path)) (.stat (Path.dirname path))
  create : ∀ mode, Mode.isReg mode ∨ Mode.isDir mode → own _ (client.locateFileMetadata path) (.create path mode)
  getDirents : ∀ host bulkSize, own _ host (.getDirents path bulkSize)

/-- The requests about the contents of a file that are the client's own. -/
structure ContentRequests {deployment : Deployment} (own : ∀ β, Nat → Request β → Prop) (client : Client deployment) (path : Str) :
    Prop where
  getMetadentrySize : own _ (client.locateFileMetadata path) (.getMetadentrySize path)
  decrSize : ∀ length, own _ (client.locateFileMetadata path) (.decrSize path length)
  updateMetadentrySize : ∀ size offset append, own _ (client.locateFileMetadata path) (.updateMetadentrySize path size offset append)
  truncData : ∀ host length, own _ host (.truncData path length)
  writeData : ∀ host input buf, input.path = path → own _ host (.writeData input buf)
  readData : ∀ host input, input.path = path → own _ host (.readData input)

section Programs
variable {deployment : Deployment} {client : Client deployment} {path : Str} {own : ∀ β, Nat → Request β → Prop}

theorem posts_elim {α γ : Type} {found : Option γ} {next : γ → Prog α} (each : ∀ value, found = some value → Posts own (next value)) :
    Posts own (found.elim .abort next) := by
  cases found with
  | none => trivial
  | some value => exact each value rfl

theorem posts_assertClient (condition : Bool) : Posts own (assertClient deployment condition) := by
  rw [assertClient]
  split <;> trivial

theorem posts_parseAttr (attr : Str) : Posts own (parseAttr deployment attr) := by
  rw [parseAttr]
  split <;> trivial

theorem posts_getMetadata (owned : own _ (client.locateFileMetadata path) (.stat path)) (followLinks : Bool) :
    Posts own (getMetadata client path followLinks) := by
  have stat : Posts own (forwardStat client path) := by
    refine Posts.bind (posts_call owned) fun answer => ?_
    rcases answer with _ | ⟨err, attr⟩ <;> trivial
  refine stat.bind fun answer => ?_
  cases answer with
  | error errno => trivial
  | ok attr =>
    refine (posts_parseAttr attr).bind fun md => ?_
    split <;> trivial

theorem posts_forwardGetDirents (owned : ∀ host bulkSize, own _ host (.getDirents path bulkSize)) :
    Posts own (forwardGetDirents client path) := by
  refine ⟨fun posted member => ?_, fun replies => posts_elim fun _ _ => trivial⟩
  obtain ⟨host, _, rfl⟩ := List.mem_map.mp member
  exact owned host _

theorem posts_gkfsOpendir (stat : own _ (client.locateFileMetadata path) (.stat path))
    (getDirents : ∀ host bulkSize, own _ host (.getDirents path bulkSize)) : Posts own (gkfsOpendir client path) := by
  refine (posts_getMetadata stat false).bind fun answer => ?_
  cases answer with
  | error => trivial
  | ok md =>
    dsimp only
    split
    next => trivial
    next => exact (posts_forwardGetDirents getDirents).bind fun _ => trivial

theorem posts_forwardRemove (remove : ∀ host, own _ host (.remove path)) (only : Bool) (size : Word) :
    Posts own (forwardRemove client path only size) := by
  refine ⟨fun posted member => ?_, fun _ => trivial⟩
  obtain ⟨host, _, rfl⟩ := List.mem_map.mp member
  exact remove host

section Entries
variable (entry : EntryRequests own client path)
include entry

theorem posts_gkfsCreate (mode : Mode) : Posts own (gkfsCreate client path mode) := by
  rw [gkfsCreate]
  split
  next => trivial
  next type typed =>
    have parent : Posts own (checkParentDir client path) := by
      refine (posts_getMetadata entry.parent false).bind fun answer => ?_
      cases answer <;> trivial
    have create : Posts own (forwardCreate client path type) := by
      refine Posts.bind (posts_call (entry.create type ((ClientSpec.nodeMode_ok typed).imp And.left And.left))) fun answer => ?_
      cases answer <;> trivial
    refine parent.bind fun answer => ?_
    cases answer with
    | error => trivial
    | ok => exact create

theorem posts_gkfsRemove (remove : ∀ host, own _ host (.remove path)) : Posts own (gkfsRemove client path) := by
  refine (posts_getMetadata entry.stat false).bind fun answer => ?_
  cases answer with
  | error => trivial
  | ok md => exact posts_forwardRemove remove _ _

theorem posts_gkfsRmdir (remove : ∀ host, own _ host (.remove path)) : Posts own (gkfsRmdir client path) := by
  refine (posts_getMetadata entry.stat false).bind fun answer => ?_
  cases answer with
  | error => trivial
  | ok md =>
    dsimp only
    split
    next => trivial
    next =>
      refine (posts_forwardGetDirents entry.getDirents).bind fun entries => ?_
      split
      next => trivial
      next => exact posts_forwardRemove remove _ _

end Entries

section Contents
variable (contents : ContentRequests own client path)
include contents

theorem posts_gkfsTruncateTo (oldSize newSize : Word) : Posts own (gkfsTruncateTo client path oldSize newSize) := by
  have shrink : Posts own (forwardDecrSize client path newSize) := by
    refine Posts.bind (posts_call (contents.decrSize newSize)) fun answer => ?_
    cases answer <;> trivial
  have cut : Posts own (forwardTruncate client path oldSize newSize) := by
    refine (posts_assertClient _).bind fun _ => posts_elim fun hosts _ => ⟨fun posted member => ?_, fun _ => trivial⟩
    obtain ⟨host, _, rfl⟩ := List.mem_map.mp member
    exact contents.truncData host _
  refine (posts_assertClient _).bind fun _ => (posts_assertClient _).bind fun _ => ?_
  split
  next => trivial
  next =>
    refine shrink.bind fun answer => ?_
    cases answer with
    | error => trivial
    | ok => exact cut

theorem posts_gkfsTruncate (entry : EntryRequests own client path) (length : Word) : Posts own (gkfsTruncate client path length) := by
  rw [gkfsTruncate]
  split
  next => trivial
  next =>
    refine (posts_getMetadata entry.stat true).bind fun answer => ?_
    cases answer with
    | error => trivial
    | ok md =>
      dsimp only
      split
      next => trivial
      next => exact posts_gkfsTruncateTo contents _ _

omit contents in
theorem path_of_inputs {transfer : Transfer} {requests : List (Nat × DataIn)} (split : transfer.inputs client path = some requests)
    {request : Nat × DataIn} (member : request ∈ requests) : request.2.path = path := by
  obtain ⟨state, _, rfl⟩ := Option.map_eq_some_iff.mp split
  obtain ⟨target, _, rfl⟩ := List.mem_map.mp member
  rfl

theorem posts_gkfsPwrite (appendFlag : Bool) (buf : List Byte) (offset : Word) :
    Posts own (ClientOps.gkfsPwrite client path appendFlag buf offset) := by
  have update : Posts own (forwardUpdateMetadentrySize client path (.ofNat 64 buf.length) offset appendFlag) := by
    refine Posts.bind (posts_call (contents.updateMetadentrySize _ _ _)) fun answer => ?_
    rcases answer with _ | ⟨err, size⟩ <;> trivial
  refine update.bind fun answer => ?_
  cases answer with
  | error => trivial
  | ok size =>
    refine (posts_assertClient _).bind fun _ => posts_elim fun requests split => ⟨fun posted member => ?_, fun _ => trivial⟩
    obtain ⟨request, among, rfl⟩ := List.mem_map.mp member
    exact contents.writeData _ _ _ (path_of_inputs split among)

theorem posts_gkfsPread (buf : List Byte) (offset : Word) : Posts own (ClientOps.gkfsPread client path buf offset) := by
  refine posts_elim fun requests split => ⟨fun posted member => ?_, fun _ => trivial⟩
  obtain ⟨request, among, rfl⟩ := List.mem_map.mp member
  exact contents.readData _ _ (path_of_inputs split among)

end Contents

theorem posts_gkfsOpen (entry : EntryRequests own client path) {flags : OpenFlags}
    (contents : flags.oTrunc = true → ContentRequests own client path) (mode : Mode) : Posts own (gkfsOpen client path mode flags) := by
  rw [gkfsOpen]
  split
  next => trivial
  next =>
  split
  next => trivial
  next =>
  refine (posts_getMetadata entry.stat false).bind fun answer => ?_
  cases answer with
  | error =>
    dsimp only
    split
    next => trivial
    next =>
    split
    next => trivial
    next =>
    split
    next => trivial
    next => exact posts_gkfsCreate entry _
  | ok md =>
    dsimp only
    split
    next => trivial
    next =>
    split
    next => trivial
    next =>
    split
    next => exact (posts_gkfsOpendir entry.stat entry.getDirents).bind fun _ => trivial
    next =>
    refine (posts_assertClient _).bind fun _ => ?_
    split
    next truncates => exact posts_gkfsTruncateTo (contents (Bool.and_eq_true_iff.mp truncates).1) _ _
    next => trivial

end Programs

/-! The same for open files. -/

section Files
variable {deployment : Deployment} {client : Client deployment} {own : ∀ β, Nat → Request β → Prop} {file : OpenFile}

/-- A seek changes nothing but the position. -/
theorem yields_gkfsLseek (file : OpenFile) (offset : Word) (whence : Whence) :
    Yields (fun moved => moved.2.path = file.path) (FileOps.gkfsLseek client file offset whence) := by
  cases whence with
  | seekSet | seekCur | other => rfl
  | seekEnd =>
    refine (yields_true _).bind fun answer _ => ?_
    dsimp only
    split
    next => rfl
    next => split <;> rfl

theorem posts_vectored {transfer : List Byte → Word → Prog (SysResult Word × List Byte)}
    (each : ∀ buf pos, Posts own (transfer buf pos)) (iov : List (List Byte)) (pos moved : Word) :
    Posts own (FileOps.vectored transfer iov pos moved) := by
  induction iov generalizing pos moved with
  | nil => trivial
  | cons buf iov ih =>
    rw [FileOps.vectored]
    split
    next => exact (ih pos moved).bind fun _ => trivial
    next =>
      refine (each buf pos).bind fun answer => ?_
      rcases answer with ⟨_ | ret, filled⟩
      · trivial
      · dsimp only
        split
        next => trivial
        next =>
        split
        next => trivial
        next => exact (ih _ _).bind fun _ => trivial

theorem posts_advance (file : OpenFile) (outcome : Outcome) : Posts own (FileOps.advance deployment file outcome) := by
  refine (posts_assertClient _).bind fun _ => ?_
  split <;> trivial

variable (contents : ContentRequests own client file.path)
include contents

theorem posts_gkfsLseek (offset : Word) (whence : Whence) : Posts own (FileOps.gkfsLseek client file offset whence) := by
  cases whence with
  | seekSet | seekCur | other => trivial
  | seekEnd =>
    have size : Posts own (forwardGetMetadentrySize client file.path) := by
      refine Posts.bind (posts_call contents.getMetadentrySize) fun answer => ?_
      rcases answer with _ | ⟨err, size⟩ <;> trivial
    refine size.bind fun answer => ?_
    dsimp only
    split
    next => trivial
    next => split <;> trivial

theorem posts_pwrite (buf : List Byte) (offset : Word) : Posts own (FileOps.gkfsPwrite client file buf offset) := by
  rw [FileOps.gkfsPwrite]
  split
  next => exact posts_gkfsPwrite contents _ _ _
  next => trivial

theorem posts_pread (buf : List Byte) (offset : Word) : Posts own (FileOps.gkfsPread client file buf offset) := by
  rw [FileOps.gkfsPread]
  split
  next => exact posts_gkfsPread contents _ _
  next => trivial

theorem posts_write (buf : List Byte) : Posts own (FileOps.gkfsWrite client file buf) := by
  have seeks : Posts own (FileOps.seekToAppend client file) := by
    rw [FileOps.seekToAppend]
    split
    next => exact (posts_gkfsLseek contents 0 .seekEnd).bind fun _ => trivial
    next => trivial
  have stays : Yields (fun moved => moved.path = file.path) (FileOps.seekToAppend client file) := by
    rw [FileOps.seekToAppend]
    split
    next => exact (yields_gkfsLseek file 0 .seekEnd).bind fun _ same => same
    next => rfl
  refine seeks.bind_of_yields stays fun moved same => (posts_pwrite ?_ buf file.pos).bind fun _ => trivial
  rwa [same]

theorem posts_read (buf : List Byte) : Posts own (FileOps.gkfsRead client file buf) :=
  (posts_pread contents buf file.pos).bind fun _ => trivial

theorem posts_pwritev (iov : List (List Byte)) (offset : Word) : Posts own (FileOps.gkfsPwritev client file iov offset) := by
  refine Posts.bind (posts_vectored (fun buf pos => ?_) iov offset 0) fun _ => trivial
  exact (posts_pwrite contents buf pos).bind fun _ => trivial

theorem posts_preadv (iov : List (List Byte)) (offset : Word) : Posts own (FileOps.gkfsPreadv client file iov offset) :=
  (posts_vectored (posts_pread contents) iov offset 0).bind fun _ => trivial

end Files

/-- The requests of a call are the client's own. -/
def OwnCall {deployment : Deployment} (own : ∀ β, Nat → Request β → Prop) (client : Client deployment) : HookCall → Prop
  | .openat path _ flags _ => EntryRequests own client path ∧ (flags.oTrunc = true → ContentRequests own client path)
  | .mkdirat path _ | .stat path | .access path => EntryRequests own client path
  | .unlinkat path _ => EntryRequests own client path ∧ ∀ host, own _ host (.remove path)
  | .truncate path _ => EntryRequests own client path ∧ ContentRequests own client path
  | .read file _ | .pread file _ _ | .readv file _ | .preadv file _ _ | .write file _ | .pwrite file _ _ | .writev file _
  | .pwritev file _ _ | .lseek file _ _ => ContentRequests own client file.path
  | .getdents _ _ | .getdents64 _ _ | .dup _ _ | .dup2 _ _ _ => True

/-- The calls of a client, one after the other, and what each of them returned. -/
def script {deployment : Deployment} (client : Client deployment) : List HookCall → Prog (List Outcome)
  | [] => return []
  | call :: calls => do
    let outcome ← call.operation client
    let outcomes ← script client calls
    return outcome :: outcomes

section Calls
variable {deployment : Deployment} {client : Client deployment} {own : ∀ β, Nat → Request β → Prop}

theorem posts_operation {call : HookCall} (owned : OwnCall own client call) : Posts own (call.operation client) := by
  cases call with
  | openat path mode flags newfd => exact (posts_gkfsOpen owned.1 owned.2 mode).bind fun _ => trivial
  | mkdirat path mode => exact (posts_gkfsCreate owned _).bind fun _ => trivial
  | stat path => exact (posts_getMetadata owned.stat true).bind fun _ => trivial
  | access path =>
    refine Posts.bind ?_ fun _ => trivial
    exact (posts_getMetadata owned.stat true).bind fun answer => by cases answer <;> trivial
  | unlinkat path removeDir =>
    cases removeDir with
    | true => exact (posts_gkfsRmdir owned.1 owned.2).bind fun _ => trivial
    | false => exact (posts_gkfsRemove owned.1 owned.2).bind fun _ => trivial
  | truncate path length => exact (posts_gkfsTruncate owned.2 owned.1 length).bind fun _ => trivial
  | read file buf => exact (posts_read owned buf).bind fun _ => trivial
  | pread file buf pos => exact (posts_pread owned buf pos).bind fun _ => trivial
  | readv file iov =>
    refine Posts.bind ?_ fun _ => trivial
    exact (posts_preadv owned iov file.pos).bind fun answer => (posts_advance file answer.1).bind fun _ => trivial
  | preadv file iov pos => exact (posts_preadv owned iov pos).bind fun _ => trivial
  | write file buf => exact (posts_write owned buf).bind fun _ => trivial
  | pwrite file buf pos => exact (posts_pwrite owned buf pos).bind fun _ => trivial
  | writev file iov =>
    refine Posts.bind ?_ fun _ => trivial
    exact (posts_pwritev owned iov file.pos).bind (posts_advance file)
  | pwritev file iov pos => exact posts_pwritev owned iov pos
  | lseek file offset whence => exact (posts_gkfsLseek owned offset whence).bind fun _ => trivial
  | getdents | getdents64 | dup2 => trivial
  | dup map oldfd =>
    rw [HookCall.operation]
    exact posts_elim fun _ _ => trivial

theorem posts_script {calls : List HookCall} (owned : ∀ call ∈ calls, OwnCall own client call) : Posts own (script client calls) := by
  induction calls with
  | nil => trivial
  | cons call calls ih =>
    refine (posts_operation (owned call List.mem_cons_self)).bind fun _ => Posts.bind ?_ fun _ => trivial
    exact ih fun other member => owned other (List.mem_cons_of_mem _ member)

end Calls

end GekkoFwd.Proofs.ClientRequests
