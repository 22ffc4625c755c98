import GitNfs.Git.Builder
import GitNfs.Git.PackWriter
import GitNfs.Wal.Proto

/-! # Replaying a log and building a pack from it -/

namespace GitNfs

/-- What a replay changes. -/
structure Replay where
  vfs : VfsManager
  staging : StagingStore

namespace Replay

def new (rootOid : Str) : Replay := ⟨VfsManager.new rootOid, StagingStore.new⟩

/-- The blob that the first write to a file starts from. -/
def baseData (g : GitEngine) (staging : StagingStore) (node : VfsNode) : Option Bytes :=
  if staging.isStaged node.id || node.oid = [] then none else (g.getBlob node.oid).toOption

def createMode (inodeType : Int) : TreeEntryMode :=
  match InodeType.ofI32 inodeType with
  | .executableFile => .executableFile
  | .symlink => .symlink
  | _ => .regularFile

/-- `ensure_parent_dirs`, `create_file` of the VFS, `create_file` of the staging store. -/
def createAt (g : GitEngine) (r : Replay) (path : Str) (mode : TreeEntryMode) : Except Error (Nat × Replay) :=
  match r.vfs.ensureParentDirs g path with
  | (.error e, _) => .error e
  | (.ok (parentId, name), vfs) =>
    match vfs.createFile g parentId name mode with
    | (.error e, _) => .error e
    | (.ok node, vfs) =>
      match r.staging.createFile node.id none with
      | (.error e, _) => .error e
      | (.ok (), staging) => .ok (node.id, ⟨vfs, staging⟩)

def replayCreateFile (g : GitEngine) (r : Replay) (create : CreateFileMutation) : Except Error Replay :=
  (r.createAt g create.path (createMode create.inodeType)).map Prod.snd

def replayMkdir (g : GitEngine) (r : Replay) (path : Str) : Except Error Replay :=
  match r.vfs.ensureParentDirs g path with
  | (.error e, _) => .error e
  | (.ok (parentId, name), vfs) =>
    match vfs.mkdir g parentId name with
    | (.error e, _) => .error e
    | (.ok _, vfs) => .ok { r with vfs }

def writeNode (g : GitEngine) (r : Replay) (id offset : Nat) (data : Bytes) : Except Error Replay :=
  match r.vfs.getNode id with
  | none => .error (.nodeNotFound id)
  | some node =>
    match r.staging.writeAt id offset data (baseData g r.staging node) none with
    | (.error e, _) => .error e
    | (.ok newLen, staging) => .ok ⟨r.vfs.updateFileSize id newLen, staging⟩

def replayWrite (g : GitEngine) (r : Replay) (path : Str) (offset : Nat) (data : Bytes) :
    Except Error Replay :=
  match r.vfs.lookupPath g path with
  | (.ok id, vfs) => writeNode g { r with vfs } id offset data
  | (.error _, vfs) =>
    match createAt g { r with vfs } path .regularFile with
    | .error e => .error e
    | .ok (id, r) => writeNode g r id offset data

def replayTruncate (g : GitEngine) (r : Replay) (path : Str) (newSize : Nat) : Except Error Replay :=
  match r.vfs.lookupPath g path with
  | (.error _, vfs) => .ok { r with vfs }
  | (.ok id, vfs) =>
    match vfs.getNode id with
    | none => .error (.nodeNotFound id)
    | some node =>
      match r.staging.truncate id newSize (baseData g r.staging node) none with
      | (.error e, _) => .error e
      | (.ok (), staging) => .ok ⟨vfs.updateFileSize id newSize, staging⟩

def replayRemove (g : GitEngine) (r : Replay) (path : Str) : Replay :=
  match r.vfs.lookupPath g path with
  | (.error _, vfs) => { r with vfs }
  | (.ok id, vfs) =>
    let vfs :=
      match vfs.ensureParentDirs g path with
      | (.ok (parentId, name), vfs) => (vfs.remove g parentId name).2
      | (.error _, vfs) => vfs
    ⟨vfs, r.staging.markDeleted id⟩

def replayRename (g : GitEngine) (r : Replay) (fromPath toPath : Str) : Replay :=
  match r.vfs.ensureParentDirs g fromPath with
  | (.error _, vfs) => { r with vfs }
  | (.ok (fromParent, fromName), vfs) =>
    match vfs.ensureParentDirs g toPath with
    | (.error _, vfs) => { r with vfs }
    | (.ok (toParent, toName), vfs) =>
      { r with vfs := (vfs.rename g fromParent fromName toParent toName).2 }

def record (r : Replay) (path : Str) : Replay :=
  { r with staging := r.staging.recordChangedPath path }

def replayPayload (g : GitEngine) (r : Replay) : WalPayload → Except Error Replay
  | .header _ => .ok r
  | .createFile create => (r.record create.path).replayCreateFile g create
  | .mkdir path => (r.record path).replayMkdir g path
  | .write path offset data => (r.record path).replayWrite g path offset data
  | .truncate path newSize => (r.record path).replayTruncate g path newSize
  | .remove path => .ok ((r.record path).replayRemove g path)
  | .rename fromPath toPath => .ok (((r.record fromPath).record toPath).replayRename g fromPath toPath)

end Replay

def replayWalEntries (g : GitEngine) : List WalEntry → Replay → Except Error Replay
  | [], r => .ok r
  | entry :: entries, r =>
    match entry.payload with
    | none => replayWalEntries g entries r
    | some payload =>
      match r.replayPayload g payload with
      | .error e => .error e
      | .ok r => replayWalEntries g entries r

structure RecoveredPackResult where
  commitOid : Str
  rootTreeOid : Str
  packData : Bytes
  idxData : Bytes
  packSha : Str
  objects : List GitObjectToPack
  deriving DecidableEq, Repr

def buildPackFromRecoveredState (zlib : Bytes → Bytes) (g : GitEngine) (r : Replay)
    (baseCommitOid author commitMessage : Str) (timestamp : Nat) :
    Option (Except Error (Option RecoveredPackResult)) :=
  if r.staging.hasModifications then
    match rebuildGitObjects r.vfs r.staging g baseCommitOid author commitMessage timestamp with
    | none => none
    | some (.error e) => some (.error e)
    | some (.ok rebuilt) =>
      match createPackAndIndexBytes zlib rebuilt.objects with
      | .error e => some (.error e)
      | .ok (packData, idxData, packSha) =>
        some (.ok (some ⟨rebuilt.commitOid, rebuilt.rootTreeOid, packData, idxData, packSha, rebuilt.objects⟩))
  else some (.ok none)

theorem buildPackFromRecoveredState_ok {zlib : Bytes → Bytes} {g : GitEngine} {r : Replay}
    {base author message : Str} {timestamp : Nat} {res : RecoveredPackResult}
    (h : buildPackFromRecoveredState zlib g r base author message timestamp = some (.ok (some res))) :
    r.staging.hasModifications = true ∧
    rebuildGitObjects r.vfs r.staging g base author message timestamp =
      some (.ok ⟨res.commitOid, res.rootTreeOid, res.objects⟩) ∧
    createPackAndIndexBytes zlib res.objects = .ok (res.packData, res.idxData, res.packSha) := by
  unfold buildPackFromRecoveredState at h
  split_ifs at h with hmod
  · split at h
    · simp at h
    · simp at h
    · rename_i rebuilt hrebuilt
      split at h
      · simp at h
      · rename_i hpack
        simp only [Option.some.injEq, Except.ok.injEq] at h
        subst h
        exact ⟨hmod, hrebuilt, hpack⟩
  · simp at h

theorem buildPackFromRecoveredState_none {zlib : Bytes → Bytes} {g : GitEngine} {r : Replay}
    {base author message : Str} {timestamp : Nat}
    (h : buildPackFromRecoveredState zlib g r base author message timestamp = some (.ok none)) :
    r.staging.hasModifications = false := by
  unfold buildPackFromRecoveredState at h
  split_ifs at h with hmod
  · split at h
    · simp at h
    · simp at h
    · split at h <;> simp at h
  · simpa using hmod

end GitNfs
