import GitNfs.Wal.Manager

/-! # What a replay leaves in the staging store

A log whose replay leaves nothing there is taken for empty.
-/

namespace GitNfs

/-- A path that `record_changed_path` drops. -/
def blankPath (path : Str) : Bool := (trimMatches '/' (trim path)).isEmpty

/-- A mutation whose replay is seen in the staging store whatever it finds. -/
def WalPayload.leavesTrace : WalPayload → Bool
  | .header _ => false
  | .createFile _ => true
  | .write _ _ _ => true
  | .mkdir path => !blankPath path
  | .truncate path _ => !blankPath path
  | .remove path => !blankPath path
  | .rename fromPath toPath => !blankPath fromPath || !blankPath toPath

namespace StagingStore

variable {st : StagingStore}

theorem hasModifications_setStaged (id size : Nat) : (st.setStaged id size).hasModifications = true := by
  have : (st.setStaged id size).stagedNodes.keys ≠ [] := by
    have hmem : id ∈ (st.setStaged id size).stagedNodes.keys := by
      rw [← AList.mem_keys]
      simp [setStaged]
    exact List.ne_nil_of_mem hmem
  simp [hasModifications, this]

theorem hasModifications_markDeleted (id : Nat) : (st.markDeleted id).hasModifications = true := by
  have : st.deletedNodes.insert id ≠ [] := List.ne_nil_of_mem List.mem_insert_self
  simp [hasModifications, markDeleted, this]

theorem hasModifications_record (path : Str) :
    (st.recordChangedPath path).hasModifications = (st.hasModifications || !blankPath path) := by
  unfold recordChangedPath blankPath
  simp only
  split_ifs with hclean
  · simp [hclean]
  · have hpaths : (st.changedPaths.insert (trimMatches '/' (trim path))).isEmpty = false :=
      List.isEmpty_eq_false_iff.mpr (List.ne_nil_of_mem List.mem_insert_self)
    have hblank : (trimMatches '/' (trim path)).isEmpty = false := List.isEmpty_eq_false_iff.mpr hclean
    simp only [hasModifications, hpaths, hblank, Bool.not_false, Bool.or_true]

theorem writeAt_modifies {id offset newLen : Nat} {data : Bytes} {base : Option Bytes} {st' : StagingStore}
    {fault : Option IoFault} (h : st.writeAt id offset data base fault = (.ok newLen, st')) :
    st'.hasModifications = true := by
  unfold writeAt at h
  split at h
  · simp at h
  · split at h <;> simp only [Prod.mk.injEq, reduceCtorEq, false_and] at h
    rw [← h.2]
    exact hasModifications_setStaged _ _

theorem truncate_modifies {id size : Nat} {base : Option Bytes} {st' : StagingStore}
    {fault : Option IoFault} (h : st.truncate id size base fault = (.ok (), st')) :
    st'.hasModifications = true := by
  unfold truncate at h
  split at h
  · simp at h
  · split at h <;> simp only [Prod.mk.injEq, reduceCtorEq, false_and] at h
    rw [← h.2]
    exact hasModifications_setStaged _ _

theorem createFile_modifies {id : Nat} {st' : StagingStore} {fault : Option IoFault}
    (h : st.createFile id fault = (.ok (), st')) : st'.hasModifications = true := by
  unfold createFile at h
  split at h <;> simp only [Prod.mk.injEq, reduceCtorEq, false_and] at h
  rw [← h.2]
  exact hasModifications_setStaged _ _

end StagingStore

namespace Replay

variable {g : GitEngine} {r r' : Replay}

theorem createAt_modifies {path : Str} {mode : TreeEntryMode} {id : Nat}
    (h : r.createAt g path mode = .ok (id, r')) : r'.staging.hasModifications = true := by
  unfold createAt at h
  split at h
  · simp at h
  · split at h
    · simp at h
    · split at h
      · simp at h
      · rename_i hstaging
        simp only [Except.ok.injEq, Prod.mk.injEq] at h
        rw [← h.2]
        exact StagingStore.createFile_modifies hstaging

theorem writeNode_modifies {id offset : Nat} {data : Bytes} (h : r.writeNode g id offset data = .ok r') :
    r'.staging.hasModifications = true := by
  unfold writeNode at h
  split at h
  · simp at h
  · split at h
    · simp at h
    · rename_i hwrite
      simp only [Except.ok.injEq] at h
      rw [← h]
      exact StagingStore.writeAt_modifies hwrite

/-- A replayed mutation adds to the staging store and never takes from it. -/
theorem replayPayload_modifies {payload : WalPayload} (h : r.replayPayload g payload = .ok r')
    (hbefore : r.staging.hasModifications = true ∨ payload.leavesTrace = true) :
    r'.staging.hasModifications = true := by
  have hrecord (path : Str) (r : Replay) : (r.record path).staging.hasModifications =
      (r.staging.hasModifications || !blankPath path) := StagingStore.hasModifications_record _
  cases payload with
  | header h' =>
    simp only [replayPayload, Except.ok.injEq] at h
    rcases hbefore with hbefore | hbefore
    · exact h ▸ hbefore
    · simp [WalPayload.leavesTrace] at hbefore
  | createFile create =>
    simp only [replayPayload, replayCreateFile] at h
    cases hat : createAt g (r.record create.path) create.path (createMode create.inodeType) with
    | error e => simp [hat, Except.map] at h
    | ok p =>
      simp only [hat, Except.map, Except.ok.injEq] at h
      exact h ▸ createAt_modifies hat
  | write path offset data =>
    simp only [replayPayload, replayWrite] at h
    split at h
    · exact writeNode_modifies h
    · split at h
      · simp at h
      · exact writeNode_modifies h
  | mkdir path =>
    have hrec : (r.record path).staging.hasModifications = true := by
      rw [hrecord]
      simpa [WalPayload.leavesTrace] using hbefore
    simp only [replayPayload, replayMkdir] at h
    split at h
    · simp at h
    · split at h
      · simp at h
      · simp only [Except.ok.injEq] at h
        exact h ▸ hrec
  | truncate path size =>
    have hrec : (r.record path).staging.hasModifications = true := by
      rw [hrecord]
      simpa [WalPayload.leavesTrace] using hbefore
    simp only [replayPayload, replayTruncate] at h
    split at h
    · simp only [Except.ok.injEq] at h
      exact h ▸ hrec
    · split at h
      · simp at h
      · split at h
        · simp at h
        · rename_i htrunc
          simp only [Except.ok.injEq] at h
          rw [← h]
          exact StagingStore.truncate_modifies htrunc
  | remove path =>
    have hrec : (r.record path).staging.hasModifications = true := by
      rw [hrecord]
      simpa [WalPayload.leavesTrace] using hbefore
    simp only [replayPayload, replayRemove, Except.ok.injEq] at h
    split at h
    · exact h ▸ hrec
    · rw [← h]
      exact StagingStore.hasModifications_markDeleted _
  | rename fromPath toPath =>
    have hrec : ((r.record fromPath).record toPath).staging.hasModifications = true := by
      rw [hrecord, hrecord]
      simpa [WalPayload.leavesTrace, Bool.or_assoc] using hbefore
    simp only [replayPayload, replayRename, Except.ok.injEq] at h
    split at h
    · exact h ▸ hrec
    · split at h
      · exact h ▸ hrec
      · exact h ▸ hrec

end Replay

def WalEntry.leavesTrace (e : WalEntry) : Bool := e.payload.any WalPayload.leavesTrace

theorem replayWalEntries_modifies {g : GitEngine} {entries : List WalEntry} {r r' : Replay}
    (h : replayWalEntries g entries r = .ok r')
    (hbefore : r.staging.hasModifications = true ∨ ∃ e ∈ entries, e.leavesTrace = true) :
    r'.staging.hasModifications = true := by
  induction entries generalizing r with
  | nil =>
    simp only [replayWalEntries, Except.ok.injEq] at h
    simpa [← h] using hbefore
  | cons entry entries ih =>
    have hsplit : r.staging.hasModifications = true ∨ entry.leavesTrace = true ∨
        ∃ e ∈ entries, e.leavesTrace = true := by
      simpa only [List.mem_cons, exists_eq_or_imp] using hbefore
    rw [replayWalEntries] at h
    split at h
    · rename_i hpayload
      refine ih h ?_
      simpa [WalEntry.leavesTrace, hpayload] using hsplit
    · rename_i payload hpayload
      split at h
      · simp at h
      · rename_i r₁ hr₁
        refine ih h ?_
        rcases hsplit with hmod | htrace | hrest
        · exact .inl (Replay.replayPayload_modifies hr₁ (.inl hmod))
        · refine .inl (Replay.replayPayload_modifies hr₁ (.inr ?_))
          simpa [WalEntry.leavesTrace, hpayload] using htrace
        · exact .inr hrest

theorem replayLogs_modifies {g : GitEngine} {s : WalStore} {faults : RecoverFaults} {seqs : List Nat}
    {info info' : CommitInfo} {r r' : Replay} (h : replayLogs g s faults seqs info r = .ok (info', r'))
    (hbefore : r.staging.hasModifications = true ∨ ∃ e ∈ seqs.flatMap s.logEntries, e.leavesTrace = true) :
    r'.staging.hasModifications = true := by
  induction seqs generalizing info r with
  | nil =>
    simp only [replayLogs, Except.ok.injEq, Prod.mk.injEq] at h
    simpa [← h.2] using hbefore
  | cons seq seqs ih =>
    rw [replayLogs] at h
    split_ifs at h
    split at h
    · simp at h
    · rename_i r₁ hr₁
      refine ih h ?_
      rw [List.flatMap_cons] at hbefore
      rcases hbefore with hmod | ⟨e, he, htrace⟩
      · exact .inl (replayWalEntries_modifies hr₁ (.inl hmod))
      · rcases List.mem_append.mp he with he | he
        · exact .inl (replayWalEntries_modifies hr₁ (.inr ⟨e, he, htrace⟩))
        · exact .inr ⟨e, he, htrace⟩

/-- Logs that hold a mutation that leaves a trace are not taken for empty. -/
theorem buildRecovery_some {zlib : Bytes → Bytes} {g : GitEngine} {s : WalStore} {cfg : RecoverConfig}
    {faults : RecoverFaults} {seqs : List Nat} {built : Option RecoveredPackResult}
    (h : buildRecovery zlib g s cfg faults seqs = some (.ok built))
    (htrace : ∃ e ∈ seqs.flatMap s.logEntries, e.leavesTrace = true) : ∃ res, built = some res := by
  cases built with
  | some res => exact ⟨res, rfl⟩
  | none =>
    unfold buildRecovery at h
    split_ifs at h
    · simp at h
    · split at h
      · simp at h
      · rename_i hreplay
        have hmod := replayLogs_modifies hreplay (.inr htrace)
        rw [buildPackFromRecoveredState_none h] at hmod
        simp at hmod

end GitNfs
