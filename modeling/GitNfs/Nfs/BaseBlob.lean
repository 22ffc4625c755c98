import GitNfs.Nfs.Contents
import GitNfs.Staging.Retry

/-! # The blob that a first edit builds on

Requests and replayed entries ask for the blob of a file that is not staged in the same way, and both take a
blob that cannot be fetched for a file that has none.
-/

namespace GitNfs

namespace StagingEdit

def toOp (edit : StagingEdit) (id : Nat) : NfsOp :=
  match edit with
  | .write offset data => .write id offset data
  | .truncate newSize => .setattr id (some newSize)

def toPayload (edit : StagingEdit) (path : Str) : WalPayload :=
  match edit with
  | .write offset data => .write path offset data
  | .truncate newSize => .truncate path newSize

/-- The blob of a file was fetched, and the file has the bytes that the edit makes of it. -/
def EditsBlob (edit : StagingEdit) (g : GitEngine) (node : VfsNode) (st : StagingStore) : Prop :=
  ∃ blob, g.getBlob node.oid = .ok blob ∧ st.getStagedContent node.id = .ok (some (edit.apply blob))

/-- The blob of a file can be fetched, and a file that was left in the staging directory makes no difference. -/
def FindsBlob (edit : StagingEdit) (g : GitEngine) (node : VfsNode) (st : StagingStore) : Prop :=
  ∃ blob, g.getBlob node.oid = .ok blob ∧ edit.apply (st.opened node.id (some blob)) = edit.apply blob

variable {edit : StagingEdit} {g : GitEngine} {node : VfsNode} {st st' : StagingStore} {fault : Option IoFault}

theorem editsBlob_iff (hstaged : st.isStaged node.id = false) (hoid : node.oid ≠ [])
    (hrun : edit.run st node.id (Replay.baseData g st node) fault = (.ok (), st')) :
    edit.EditsBlob g node st' ↔ edit.FindsBlob g node st := by
  have hcontent := StagingStore.run_ok hrun
  have hbase : Replay.baseData g st node = (g.getBlob node.oid).toOption := by
    unfold Replay.baseData
    simp [hstaged, hoid]
  unfold EditsBlob FindsBlob
  rw [hbase] at hcontent
  constructor
  · rintro ⟨blob, hblob, hgot⟩
    rw [hblob] at hcontent
    rw [hcontent] at hgot
    simp only [Except.ok.injEq, Option.some.injEq] at hgot
    exact ⟨blob, hblob, hgot⟩
  · rintro ⟨blob, hblob, hsame⟩
    rw [hblob] at hcontent
    exact ⟨blob, hblob, by rw [hcontent, ← hsame]; rfl⟩

/-- Without a file left in the staging directory it is only the fetch that counts. -/
theorem findsBlob_of_fetched {blob : Bytes} (hfile : st.files node.id = none) (hblob : g.getBlob node.oid = .ok blob) :
    edit.FindsBlob g node st :=
  ⟨blob, hblob, by simp [StagingStore.opened, hfile]⟩

end StagingEdit

/-! ## Requests -/

namespace Fs

variable {g : GitEngine} {fs fs' : Fs} {id : Nat} {node node' : VfsNode} {fault : Option IoFault}

theorem applyWrite_ran {offset : Nat} {data : Bytes} (hnode : fs.liveNode id = .ok node)
    (h : fs.applyWrite g id offset data fault = (.ok node', fs')) :
    node' = node ∧ (StagingEdit.write offset data).run fs.staging id (Replay.baseData g fs.staging node) fault =
      (.ok (), fs'.staging) := by
  unfold applyWrite at h
  simp only [hnode] at h
  split_ifs at h
  · simp at h
  · simp only [StagingEdit.run]
    cases hw : fs.staging.writeAt id offset data (Replay.baseData g fs.staging node) fault with
    | mk res st =>
      simp only [hw] at h
      cases res with
      | error e => simp at h
      | ok newLen =>
        cases h
        exact ⟨rfl, rfl⟩

theorem applySetSize_ran {newSize : Nat} (hnode : fs.liveNode id = .ok node)
    (h : fs.applySetSize g id newSize fault = (.ok node', fs')) :
    node' = node ∧ (StagingEdit.truncate newSize).run fs.staging id (Replay.baseData g fs.staging node) fault =
      (.ok (), fs'.staging) := by
  unfold applySetSize at h
  simp only [hnode] at h
  split_ifs at h
  · simp at h
  · simp only [StagingEdit.run]
    cases ht : fs.staging.truncate id newSize (Replay.baseData g fs.staging node) fault with
    | mk res st =>
      simp only [ht] at h
      cases res with
      | error e => simp at h
      | ok _ =>
        cases h
        exact ⟨rfl, rfl⟩

/-- Recording that a path was changed leaves the content of every file. -/
theorem logFile_content {now : Nat} {payload : Str → WalPayload} {h : Handled Fattr}
    (heq : fs.logFile g now node payload = some h) (i : Nat) :
    h.fs.staging.getStagedContent i = fs.staging.getStagedContent i := by
  unfold logFile at heq
  split at heq
  · simp at heq
  · cases heq
    rfl
  · cases heq
    simp only [recordMutation, StagingStore.recordChangedPath]
    split_ifs <;> rfl

theorem edit_ran {edit : StagingEdit} {now : Nat} {h : Handled Unit} (hnode : fs.liveNode id = .ok node)
    (heq : fs.handle g now fault (edit.toOp id) = some h) (hok : h.answer = .ok ()) :
    ∃ st', edit.run fs.staging id (Replay.baseData g fs.staging node) fault = (.ok (), st') ∧
      ∀ i, h.fs.staging.getStagedContent i = st'.getStagedContent i := by
  cases edit with
  | write offset data =>
    simp only [StagingEdit.toOp, handle] at heq
    obtain ⟨h', hwrite, rfl⟩ := Option.map_eq_some_iff.mp heq
    unfold Fs.write at hwrite
    cases ha : fs.applyWrite g id offset data fault with
    | mk res fs' =>
      simp only [ha] at hwrite
      cases res with
      | error e =>
        cases hwrite
        simp [Handled.map, Except.map] at hok
      | ok node' =>
        obtain ⟨-, hrun⟩ := applyWrite_ran hnode ha
        exact ⟨fs'.staging, hrun, logFile_content hwrite⟩
  | truncate newSize =>
    simp only [StagingEdit.toOp, handle] at heq
    obtain ⟨h', hset, rfl⟩ := Option.map_eq_some_iff.mp heq
    simp only [Fs.setattr] at hset
    cases ha : fs.applySetSize g id newSize fault with
    | mk res fs' =>
      simp only [ha] at hset
      cases res with
      | error e =>
        cases hset
        simp [Handled.map, Except.map] at hok
      | ok node' =>
        obtain ⟨-, hrun⟩ := applySetSize_ran hnode ha
        exact ⟨fs'.staging, hrun, logFile_content hset⟩

end Fs

/-! ## Replaying -/

namespace Replay

variable {g : GitEngine} {r r' : Replay} {id : Nat} {node : VfsNode}

theorem replayPayload_ran {edit : StagingEdit} {path : Str} {vfs : VfsManager}
    (hlookup : r.vfs.lookupPath g path = (.ok id, vfs)) (hnode : vfs.getNode id = some node)
    (h : r.replayPayload g (edit.toPayload path) = .ok r') :
    edit.run (r.staging.recordChangedPath path) id
      (baseData g (r.staging.recordChangedPath path) node) none = (.ok (), r'.staging) := by
  cases edit with
  | write offset data =>
    simp only [StagingEdit.toPayload, replayPayload, replayWrite, record, hlookup, writeNode, hnode] at h
    simp only [StagingEdit.run]
    cases hw : (r.staging.recordChangedPath path).writeAt id offset data
        (baseData g (r.staging.recordChangedPath path) node) none with
    | mk res st =>
      simp only [hw] at h
      cases res with
      | error e => simp at h
      | ok newLen =>
        cases h
        rfl
  | truncate newSize =>
    simp only [StagingEdit.toPayload, replayPayload, replayTruncate, record, hlookup, hnode] at h
    simp only [StagingEdit.run]
    cases ht : (r.staging.recordChangedPath path).truncate id newSize
        (baseData g (r.staging.recordChangedPath path) node) none with
    | mk res st =>
      simp only [ht] at h
      cases res with
      | error e => simp at h
      | ok _ =>
        cases h
        rfl

end Replay

theorem recordChangedPath_isStaged (st : StagingStore) (path : Str) (id : Nat) :
    (st.recordChangedPath path).isStaged id = st.isStaged id := by
  unfold StagingStore.recordChangedPath
  simp only
  split_ifs <;> rfl

theorem recordChangedPath_opened (st : StagingStore) (path : Str) (id : Nat) (initialData : Option Bytes) :
    (st.recordChangedPath path).opened id initialData = st.opened id initialData := by
  unfold StagingStore.recordChangedPath
  simp only
  split_ifs <;> rfl

/-- A replay that succeeds got through each of its entries. -/
theorem replayWalEntries_split {g : GitEngine} {done rest : List WalEntry} {entry : WalEntry} {payload : WalPayload}
    {r r' : Replay} (hpayload : entry.payload = some payload)
    (h : replayWalEntries g (done ++ entry :: rest) r = .ok r') :
    ∃ r₁ r₂, replayWalEntries g done r = .ok r₁ ∧ r₁.replayPayload g payload = .ok r₂ ∧
      replayWalEntries g rest r₂ = .ok r' := by
  induction done generalizing r with
  | nil =>
    simp only [List.nil_append, replayWalEntries, hpayload] at h
    split at h
    · simp at h
    · rename_i r₂ hr₂
      exact ⟨r, r₂, rfl, hr₂, h⟩
  | cons first done ih =>
    simp only [List.cons_append, replayWalEntries] at h ⊢
    split at h
    · exact ih h
    · split at h
      · simp at h
      · exact ih h

/-! ## Both -/

/-- An edit of a file that is not staged and has an object id, as a request or as a replayed entry: when it
succeeds it was done to the blob exactly when the blob was found. -/
theorem edit_builds_on_blob (g : GitEngine) (edit : StagingEdit) (node : VfsNode) (hoid : node.oid ≠ []) :
    (∀ fs now fault h, Fs.liveNode fs node.id = .ok node → fs.staging.isStaged node.id = false →
      fs.handle g now fault (edit.toOp node.id) = some h → h.answer = .ok () →
      (edit.EditsBlob g node h.fs.staging ↔ edit.FindsBlob g node fs.staging)) ∧
    (∀ done entry rest r r' path, entry.payload = some (edit.toPayload path) →
      replayWalEntries g (done ++ entry :: rest) r = .ok r' →
      ∃ r₁ r₂, replayWalEntries g done r = .ok r₁ ∧ r₁.replayPayload g (edit.toPayload path) = .ok r₂ ∧
        ∀ vfs, r₁.vfs.lookupPath g path = (.ok node.id, vfs) → vfs.getNode node.id = some node →
          r₁.staging.isStaged node.id = false →
          (edit.EditsBlob g node r₂.staging ↔ edit.FindsBlob g node r₁.staging)) := by
  constructor
  · intro fs now fault h hnode hstaged heq hok
    obtain ⟨st', hrun, hcontent⟩ := Fs.edit_ran hnode heq hok
    rw [← StagingEdit.editsBlob_iff hstaged hoid hrun]
    simp only [StagingEdit.EditsBlob, hcontent]
  · intro done entry rest r r' path hpayload hreplay
    obtain ⟨r₁, r₂, hdone, hentry, -⟩ := replayWalEntries_split hpayload hreplay
    refine ⟨r₁, r₂, hdone, hentry, fun vfs hlookup hnode hstaged => ?_⟩
    rw [StagingEdit.editsBlob_iff (by rw [recordChangedPath_isStaged]; exact hstaged) hoid
      (Replay.replayPayload_ran hlookup hnode hentry)]
    simp only [StagingEdit.FindsBlob, recordChangedPath_opened]

def noteNode : VfsNode := ⟨2, 1, ['f'], Fs.noteOid, .regularFile, false, 1048576, false⟩

def noteFs : Fs := (Fs.new ['r']).setVfs ((VfsManager.new ['r']).populate Fs.noteBase 1 ['r'])

def noteEntry : WalEntry := ⟨0, 0, some ((StagingEdit.write 1 [0x63]).toPayload ['f'])⟩

theorem edit_builds_on_blob_note :
    (∃ h, noteFs.handle Fs.noteBase 0 none (.write 2 1 [0x63]) = some h ∧
      (StagingEdit.write 1 [0x63]).EditsBlob Fs.noteBase noteNode h.fs.staging) ∧
    ∃ r₂, (Replay.new ['r']).replayPayload Fs.noteBase (.write ['f'] 1 [0x63]) = .ok r₂ ∧
      (StagingEdit.write 1 [0x63]).EditsBlob Fs.noteBase noteNode r₂.staging := by
  have hblob : Fs.noteBase.getBlob noteNode.oid = .ok [0x61, 0x62] := rfl
  obtain ⟨hlive, hreplay⟩ := edit_builds_on_blob Fs.noteBase (.write 1 [0x63]) noteNode (by decide)
  constructor
  · exact ⟨_, rfl, (hlive noteFs 0 none _ rfl rfl rfl rfl).mpr (StagingEdit.findsBlob_of_fetched rfl hblob)⟩
  · obtain ⟨r₁, r₂, hnone, hentry, hedits⟩ := hreplay [] noteEntry [] (Replay.new ['r']) _ ['f'] rfl rfl
    cases hnone
    exact ⟨r₂, hentry, (hedits _ rfl rfl rfl).mpr (StagingEdit.findsBlob_of_fetched rfl hblob)⟩

/-- The same base while no blob can be fetched. -/
def lostBase : GitEngine := { Fs.noteBase with blobs := fun _ => none }

/-- The file starts again from nothing. -/
theorem lost_blob_counts_as_empty :
    ∃ h r', lostBase.getBlob noteNode.oid = .error .io ∧
      noteFs.liveNode 2 = .ok noteNode ∧ noteFs.staging.isStaged 2 = false ∧
      noteFs.handle lostBase 0 none (.write 2 1 [0x63]) = some h ∧ h.answer = .ok () ∧
      h.fs.staging.getStagedContent 2 = .ok (some [0, 0x63]) ∧
      replayWalEntries lostBase [noteEntry] (Replay.new ['r']) = .ok r' ∧
      r'.staging.getStagedContent 2 = .ok (some [0, 0x63]) :=
  ⟨_, _, rfl, rfl, rfl, rfl, rfl, rfl, rfl, rfl⟩

end GitNfs
