import GitNfs.Server
import GitNfs.Vfs.WellFormed

/-! # What every handler does

Whatever a request asks for, its handler keeps the inodes well formed, and a change that it answers with
success is handed to the log.
-/

namespace GitNfs

/-- A request that changes something: setting attributes without a size changes nothing. -/
def NfsOp.isMutation : NfsOp → Bool
  | .setattr _ none => false
  | _ => true

namespace Fs

variable {g : GitEngine} {fs : Fs}

theorem liveNode_ok {id : Nat} {node : VfsNode} (h : fs.liveNode id = .ok node) :
    fs.vfs.nodes id = some node ∧ node.isDeleted = false ∧ fs.staging.isDeleted id = false := by
  unfold liveNode at h
  split_ifs at h with hdel
  split at h
  · rename_i n hn
    simp only [Except.ok.injEq] at h
    subst h
    unfold VfsManager.getNode at hn
    split at hn
    · rename_i n' hn'
      split_ifs at hn with hd
      simp only [Option.some.injEq] at hn
      subst hn
      exact ⟨hn', by simpa using hd, by simpa using hdel⟩
    · simp at hn
  · simp at h

/-- A file system whose inodes are well formed, and a node that is one of them. -/
def Holds (fs : Fs) (node : VfsNode) : Prop := fs.vfs.WellFormed ∧ ∃ n, fs.vfs.nodes node.id = some n

theorem holds_updateFileSize {id : Nat} {node : VfsNode} (hv : fs.vfs.WellFormed)
    (hn : fs.vfs.nodes id = some node) (staging : StagingStore) (size : Nat) :
    Holds { fs with staging, vfs := fs.vfs.updateFileSize id size } node := by
  refine ⟨hv.updateFileSize id size, { node with size := size }, ?_⟩
  simp [VfsManager.updateFileSize, hn, hv.id_eq id node hn]

theorem applyWrite_keeps (hv : fs.vfs.WellFormed) (id offset : Nat) (data : Bytes) (fault : Option IoFault) :
    (fs.applyWrite g id offset data fault).2.vfs.WellFormed ∧
      ∀ node, (fs.applyWrite g id offset data fault).1 = .ok node →
        Holds (fs.applyWrite g id offset data fault).2 node := by
  unfold applyWrite
  split
  · exact ⟨hv, by simp⟩
  · rename_i node hnode
    obtain ⟨hn, -⟩ := liveNode_ok hnode
    split_ifs
    · exact ⟨hv, by simp⟩
    · split
      · exact ⟨hv, by simp⟩
      · refine ⟨hv.updateFileSize _ _, fun node' h => ?_⟩
        cases h
        exact holds_updateFileSize hv hn _ _

theorem applySetSize_keeps (hv : fs.vfs.WellFormed) (id size : Nat) (fault : Option IoFault) :
    (fs.applySetSize g id size fault).2.vfs.WellFormed ∧
      ∀ node, (fs.applySetSize g id size fault).1 = .ok node →
        Holds (fs.applySetSize g id size fault).2 node := by
  unfold applySetSize
  split
  · exact ⟨hv, by simp⟩
  · rename_i node hnode
    obtain ⟨hn, -⟩ := liveNode_ok hnode
    split_ifs
    · exact ⟨hv, by simp⟩
    · split
      · exact ⟨hv, by simp⟩
      · refine ⟨hv.updateFileSize _ _, fun node' h => ?_⟩
        cases h
        exact holds_updateFileSize hv hn _ _

/-- The path of a node that is there is found, so the change is logged. -/
theorem logFile_logged {now : Nat} {node : VfsNode} {payload : Str → WalPayload} {h : Handled Fattr}
    (hfs : Holds fs node) (heq : fs.logFile g now node payload = some h) :
    h.fs.vfs = fs.vfs ∧ ∃ path, h.logged = some (payload path) := by
  obtain ⟨hv, n, hn⟩ := hfs
  unfold logFile at heq
  split at heq
  · simp at heq
  · rename_i e he
    exact absurd he (VfsManager.getPath_ne_error hv hn e)
  · rename_i path _
    simp only [Option.some.injEq] at heq
    subst heq
    exact ⟨rfl, path, rfl⟩

theorem logChild_logged {α : Type} {now dirid : Nat} {name : Str} {payload : Str → WalPayload}
    {answer : Fs → α} {h : Handled α} (heq : fs.logChild now dirid name payload answer = some h) :
    h.fs.vfs = fs.vfs ∧ ∃ path, h.logged = some (payload path) := by
  obtain ⟨path, -, rfl⟩ := Option.map_eq_some_iff.mp heq
  exact ⟨rfl, path, rfl⟩

/-- What a handler leaves behind. -/
structure Handles {α : Type} (h : Handled α) : Prop where
  wellFormed : h.fs.vfs.WellFormed
  logged : h.answer.isOk = true → ∃ payload, h.logged = some payload ∧ payload.isHeader = false

theorem Handles.map {α β : Type} {h : Handled α} (hh : Handles h) (f : α → β) : Handles (h.map f) := by
  refine ⟨hh.wellFormed, fun hok => hh.logged ?_⟩
  cases ha : h.answer with
  | error e => simp [Handled.map, ha, Except.map, Except.isOk, Except.toBool] at hok
  | ok a => rfl

theorem write_handles {now id offset : Nat} {data : Bytes} {fault : Option IoFault} {h : Handled Fattr}
    (hv : fs.vfs.WellFormed) (heq : fs.write g now id offset data fault = some h) : Handles h := by
  obtain ⟨hkeep, hnode⟩ := applyWrite_keeps (g := g) hv id offset data fault
  unfold write at heq
  split at heq
  · rename_i e fs' happly
    simp only [Option.some.injEq] at heq
    subst heq
    rw [happly] at hkeep
    exact ⟨hkeep, by simp [Except.isOk, Except.toBool]⟩
  · rename_i node fs' happly
    rw [happly] at hkeep hnode
    obtain ⟨hvfs, path, hlog⟩ := logFile_logged (hnode node rfl) heq
    exact ⟨hvfs ▸ hkeep, fun _ => ⟨_, hlog, rfl⟩⟩

theorem setattr_handles {now id size : Nat} {fault : Option IoFault} {h : Handled Fattr}
    (hv : fs.vfs.WellFormed) (heq : fs.setattr g now id (some size) fault = some h) : Handles h := by
  obtain ⟨hkeep, hnode⟩ := applySetSize_keeps (g := g) hv id size fault
  simp only [setattr] at heq
  split at heq
  · rename_i e fs' happly
    simp only [Option.some.injEq] at heq
    subst heq
    rw [happly] at hkeep
    exact ⟨hkeep, by simp [Except.isOk, Except.toBool]⟩
  · rename_i node fs' happly
    rw [happly] at hkeep hnode
    obtain ⟨hvfs, path, hlog⟩ := logFile_logged (hnode node rfl) heq
    exact ⟨hvfs ▸ hkeep, fun _ => ⟨_, hlog, rfl⟩⟩

theorem setattr_none {now id : Nat} {fault : Option IoFault} {h : Handled Fattr}
    (heq : fs.setattr g now id none fault = some h) : h.fs = fs ∧ h.logged = none := by
  simp only [setattr] at heq
  split at heq <;>
  · simp only [Option.some.injEq] at heq
    subst heq
    exact ⟨rfl, rfl⟩

theorem createNode_handles {α : Type} {now dirid : Nat} {filename : Bytes} {fault : Option IoFault}
    {answer : VfsNode → Fs → α} {h : Handled α} (hv : fs.vfs.WellFormed)
    (heq : fs.createNode g now dirid filename fault answer = some h) : Handles h := by
  have hmade := hv.createFile (g := g) dirid (fromUtf8Lossy filename) .regularFile
  unfold createNode at heq
  simp only at heq
  split at heq
  · rename_i hcreate
    simp only [Option.some.injEq] at heq
    subst heq
    rw [hcreate] at hmade
    exact ⟨hmade, by simp [Except.isOk, Except.toBool]⟩
  · rename_i hcreate
    rw [hcreate] at hmade
    split at heq
    · simp only [Option.some.injEq] at heq
      subst heq
      exact ⟨hmade, by simp [Except.isOk, Except.toBool]⟩
    · obtain ⟨hvfs, path, hlog⟩ := logChild_logged heq
      exact ⟨hvfs ▸ hmade, fun _ => ⟨_, hlog, rfl⟩⟩

theorem mkdir_handles {now dirid : Nat} {dirname : Bytes} {h : Handled (Nat × Fattr)}
    (hv : fs.vfs.WellFormed) (heq : fs.mkdir g now dirid dirname = some h) : Handles h := by
  have hmade := hv.mkdir (g := g) dirid (fromUtf8Lossy dirname)
  unfold mkdir at heq
  simp only at heq
  split at heq
  · rename_i hmk
    simp only [Option.some.injEq] at heq
    subst heq
    rw [hmk] at hmade
    exact ⟨hmade, by simp [Except.isOk, Except.toBool]⟩
  · rename_i hmk
    rw [hmk] at hmade
    obtain ⟨hvfs, path, hlog⟩ := logChild_logged heq
    exact ⟨hvfs ▸ hmade, fun _ => ⟨_, hlog, rfl⟩⟩

theorem remove_handles {now dirid : Nat} {filename : Bytes} {h : Handled Unit}
    (hv : fs.vfs.WellFormed) (heq : fs.remove g now dirid filename = some h) : Handles h := by
  have hgone := hv.remove (g := g) dirid (fromUtf8Lossy filename)
  unfold remove at heq
  simp only at heq
  split at heq
  · rename_i hrm
    simp only [Option.some.injEq] at heq
    subst heq
    rw [hrm] at hgone
    exact ⟨hgone, by simp [Except.isOk, Except.toBool]⟩
  · rename_i hrm
    rw [hrm] at hgone
    obtain ⟨hvfs, path, hlog⟩ := logChild_logged heq
    exact ⟨hvfs ▸ hgone, fun _ => ⟨_, hlog, rfl⟩⟩

theorem rename_handles {now fd td : Nat} {fn tn : Bytes} {h : Handled Unit}
    (hv : fs.vfs.WellFormed) (heq : fs.rename g now fd fn td tn = some h) : Handles h := by
  have hmoved := hv.rename (g := g) fd (fromUtf8Lossy fn) td (fromUtf8Lossy tn)
  unfold rename at heq
  simp only at heq
  split at heq
  · unfold applyRename at heq
    split at heq
    · rename_i happly
      simp only [Option.some.injEq] at heq
      subst heq
      split at happly
      · rename_i hren
        rw [hren] at hmoved
        simp only [Prod.mk.injEq] at happly
        exact ⟨happly.2 ▸ hmoved, by simp [Except.isOk, Except.toBool]⟩
      · simp at happly
    · rename_i happly
      simp only [Option.some.injEq] at heq
      subst heq
      split at happly
      · simp at happly
      · rename_i hren
        rw [hren] at hmoved
        simp only [Prod.mk.injEq] at happly
        exact ⟨happly.2 ▸ hmoved, fun _ => ⟨_, rfl, rfl⟩⟩
  · simp at heq

/-- Every handler keeps the inodes well formed and logs the change that it answers with success. -/
theorem handle_handles {now : Nat} {fault : Option IoFault} {op : NfsOp} {h : Handled Unit}
    (hv : fs.vfs.WellFormed) (heq : fs.handle g now fault op = some h) :
    h.fs.vfs.WellFormed ∧ (op.isMutation = true → h.answer.isOk = true →
      ∃ payload, h.logged = some payload ∧ payload.isHeader = false) := by
  have hof {h' : Handled Unit} (hh : Handles h') : h'.fs.vfs.WellFormed ∧ (op.isMutation = true →
      h'.answer.isOk = true → ∃ payload, h'.logged = some payload ∧ payload.isHeader = false) :=
    ⟨hh.wellFormed, fun _ => hh.logged⟩
  cases op with
  | create dirid filename =>
    obtain ⟨h', hop, rfl⟩ := Option.map_eq_some_iff.mp heq
    exact hof ((createNode_handles hv hop).map _)
  | createExclusive dirid filename =>
    obtain ⟨h', hop, rfl⟩ := Option.map_eq_some_iff.mp heq
    exact hof ((createNode_handles hv hop).map _)
  | mkdir dirid dirname =>
    obtain ⟨h', hop, rfl⟩ := Option.map_eq_some_iff.mp heq
    exact hof ((mkdir_handles hv hop).map _)
  | write id offset data =>
    obtain ⟨h', hop, rfl⟩ := Option.map_eq_some_iff.mp heq
    exact hof ((write_handles hv hop).map _)
  | setattr id size =>
    obtain ⟨h', hop, rfl⟩ := Option.map_eq_some_iff.mp heq
    cases size with
    | none =>
      obtain ⟨hfs, -⟩ := setattr_none hop
      exact ⟨by simpa [Handled.map, hfs] using hv, by simp [NfsOp.isMutation]⟩
    | some size => exact hof ((setattr_handles hv hop).map _)
  | remove dirid filename => exact hof (remove_handles hv heq)
  | rename fd fn td tn => exact hof (rename_handles hv heq)

end Fs

end GitNfs
