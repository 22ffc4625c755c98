import GitNfs.Nfs.BaseBlob
import GitNfs.Vfs.Renames

/-! # What a client sees

The places of the tree with the bytes and the size that the file system shows for them, over every state that
requests and commits can reach, whatever fails.
-/

namespace GitNfs

namespace VfsManager

variable {g : GitEngine} {v v' v'' : VfsManager}

/-- Nodes stay, a node that no name leads to gets no name again, and no node gets the number 0. -/
structure Settles (v v' : VfsManager) : Prop where
  nodes : ∀ i n, v.nodes i = some n → ∃ n', v'.nodes i = some n'
  unnamed : ∀ i n, v.nodes i = some n → (∀ k, v.childMap k ≠ some i) → ∀ k, v'.childMap k ≠ some i
  zero : v.nodes 0 = none → v'.nodes 0 = none

theorem Settles.refl (v : VfsManager) : Settles v v := ⟨fun _ n hn => ⟨n, hn⟩, fun _ _ _ => id, id⟩

theorem Settles.trans (h : Settles v v') (h' : Settles v' v'') : Settles v v'' where
  nodes i n hn := by
    obtain ⟨n', hn'⟩ := h.nodes i n hn
    exact h'.nodes i n' hn'
  unnamed i n hn hfree := by
    obtain ⟨n', hn'⟩ := h.nodes i n hn
    exact h'.unnamed i n' hn' (h.unnamed i n hn hfree)
  zero hz := h'.zero (h.zero hz)

theorem Change.settles {al : Allowed} (hv : v.WellFormed) (h : Change al g v v') : Settles v v' := by
  cases h with
  | @populate d dir hd hdir hisDir =>
    refine ⟨fun i n hn => ⟨n, populate_nodes_old hv hd hn⟩, fun i n hn hfree k hk => ?_, fun hz => ?_⟩
    rcases populate_childMap (hv.unmapped hd) g dir.oid k with ⟨hmap, -⟩ | ⟨-, a, e, -, -, hmap⟩
    · exact hfree k (hmap ▸ hk)
    · rw [hmap, Option.some.injEq] at hk
      have := hv.fresh i n hn
      omega
    · have := hv.fresh d dir hdir
      rw [populate_nodes (hv.unmapped hd), if_neg (by omega), hz]
  | @revive k i n _ hfile hi hn hmap hnodes =>
    refine ⟨fun j m hm => ?_, fun j m hm hfree => hmap ▸ hfree, fun hz => ?_⟩
    · rw [hnodes]
      split_ifs
      · exact ⟨_, rfl⟩
      · exact ⟨m, hm⟩
    · rw [hnodes, if_neg, hz]
      rintro rfl
      simp [hz] at hn
  | @add n _ hid hlive hfile hdir hname hfree hmap hnodes =>
    refine ⟨fun j m hm => ?_, fun j m hm hnone k hk => ?_, fun hz => ?_⟩
    · rw [hnodes]
      split_ifs
      · exact ⟨_, rfl⟩
      · exact ⟨m, hm⟩
    · rw [hmap] at hk
      split_ifs at hk
      · have := hv.fresh j m hm
        simp only [Option.some.injEq] at hk
        omega
      · exact hnone k hk
    · obtain ⟨r, hr, -⟩ := hv.root
      have := hv.fresh rootInode r hr
      rw [hnodes, if_neg (by omega), hz]
  | @remove k i _ hi hmap hnodes =>
    refine ⟨fun j m hm => ?_, fun j m hm hnone k' hk => ?_, fun hz => ?_⟩
    · rw [hnodes]
      split_ifs with hj
      · exact ⟨_, by rw [← hj, hm]; rfl⟩
      · exact ⟨m, hm⟩
    · rw [hmap] at hk
      split_ifs at hk
      exact hnone k' hk
    · rw [hnodes]
      split_ifs with h
      · rw [← h, hz]
        rfl
      · exact hz
  | @move src dst i n _ hi hn hdir hname hmove hmap hnodes =>
    refine ⟨fun j m hm => ?_, fun j m hm hnone k' hk => ?_, fun hz => ?_⟩
    · rw [hnodes]
      split_ifs
      · exact ⟨_, rfl⟩
      · exact ⟨_, by rw [hm]; rfl⟩
      · exact ⟨m, hm⟩
    · rw [hmap] at hk
      split_ifs at hk with hdst hsrc
      · simp only [Option.some.injEq] at hk
        exact hnone src (hk ▸ hi)
      · exact hnone k' hk
    · have hne : i ≠ 0 := by
        rintro rfl
        simp [hz] at hn
      rw [hnodes, if_neg hne.symm, hz]
      split_ifs <;> rfl

/-- What a call may do without a condition. -/
def anything : Allowed := ⟨True, True, fun _ => True, fun _ _ _ _ => True⟩

theorem Changes.settles (h : Changes anything g v v') : Settles v v' := by
  induction h with
  | refl => exact .refl v
  | tail _ hlast ih => exact ih.trans (hlast.2.settles hlast.1)

theorem apply_settles (hv : v.WellFormed) (call : VfsCall) : Settles v (call.apply g v) := by
  apply Changes.settles
  refine apply_changes hv call (.inr trivial) (fun _ _ => trivial) (.inl trivial) ?_
  cases call with
  | rename fd fn td tn => exact fun _ _ _ _ => trivial
  | _ => trivial

theorem updateFileSize_settles (v : VfsManager) (i size : Nat) : Settles v (v.updateFileSize i size) where
  nodes j m hm := by
    unfold updateFileSize
    rw [modifyNode_nodes]
    split_ifs with hj
    · exact ⟨_, by rw [← hj, hm]; rfl⟩
    · exact ⟨m, hm⟩
  unnamed _ _ _ := id
  zero hz := by
    unfold updateFileSize
    rw [modifyNode_nodes]
    split_ifs with h
    · rw [← h, hz]
      rfl
    · exact hz

end VfsManager

namespace Fs

/-! ## What a request does before it asks for a path -/

/-- The answer of a handler and what it has changed, before it asks for the path of what it changed. -/
def act (g : GitEngine) (fs : Fs) (fault : Option IoFault) : NfsOp → Except NfsStat Unit × Fs
  | .create dirid filename | .createExclusive dirid filename =>
    match fs.vfs.createFile g dirid (fromUtf8Lossy filename) .regularFile with
    | (.error _, vfs) => (.error .io, fs.setVfs vfs)
    | (.ok node, vfs) =>
      match fs.staging.createFile node.id fault with
      | (.error _, staging) => (.error .io, { fs with vfs, staging })
      | (.ok (), staging) => (.ok (), { fs with vfs, staging })
  | .mkdir dirid dirname =>
    match fs.vfs.mkdir g dirid (fromUtf8Lossy dirname) with
    | (.error _, vfs) => (.error .io, fs.setVfs vfs)
    | (.ok _, vfs) => (.ok (), fs.setVfs vfs)
  | .write id offset data =>
    ((fs.applyWrite g id offset data fault).1.map fun _ => (), (fs.applyWrite g id offset data fault).2)
  | .setattr id none => ((fs.liveNode id).map fun _ => (), fs)
  | .setattr id (some newSize) =>
    ((fs.applySetSize g id newSize fault).1.map fun _ => (), (fs.applySetSize g id newSize fault).2)
  | .remove dirid filename =>
    match fs.vfs.remove g dirid (fromUtf8Lossy filename) with
    | (.error _, vfs) => (.error .noent, fs.setVfs vfs)
    | (.ok node, vfs) => (.ok (), { fs with vfs, staging := fs.staging.markDeleted node.id })
  | .rename fromDirid fromFilename toDirid toFilename =>
    fs.applyRename g fromDirid (fromUtf8Lossy fromFilename) toDirid (fromUtf8Lossy toFilename)

variable {g : GitEngine} {fs fs' : Fs} {fault : Option IoFault}

/-- A handler that answers has done what it does, and what it answers is noted at most. An error is not. -/
structure Answers {α : Type} (h : Handled α) (done : Except NfsStat Unit × Fs) : Prop where
  answer : (h.answer.map fun _ => ()) = done.1
  alike : done.2.Alike h.fs
  error : ∀ e, h.answer = .error e → h.logged = none

theorem logFile_answer {now : Nat} {node : VfsNode} {payload : Str → WalPayload} {h : Handled Fattr}
    (heq : fs.logFile g now node payload = some h) : ∃ attr, h.answer = .ok attr := by
  unfold logFile at heq
  split at heq
  · simp at heq
  · cases heq
    exact ⟨_, rfl⟩
  · cases heq
    exact ⟨_, rfl⟩

theorem logChild_answer {α : Type} {now dirid : Nat} {name : Str} {payload : Str → WalPayload}
    {answer : Fs → α} {h : Handled α} (heq : fs.logChild now dirid name payload answer = some h) :
    ∃ a, h.answer = .ok a := by
  obtain ⟨path, -, rfl⟩ := Option.map_eq_some_iff.mp heq
  exact ⟨_, rfl⟩

theorem answers_ok {α : Type} {h : Handled α} {done : Fs} (hok : ∃ a, h.answer = .ok a) (halike : done.Alike h.fs) :
    Answers h (.ok (), done) := by
  obtain ⟨a, ha⟩ := hok
  refine ⟨by simp [ha, Except.map], halike, fun e he => ?_⟩
  simp [ha] at he

theorem answers_error {α : Type} (e : NfsStat) (done : Fs) : Answers (⟨.error e, done, none⟩ : Handled α) (.error e, done) :=
  ⟨rfl, .refl done, fun _ _ => rfl⟩

theorem Answers.map {α : Type} {h : Handled α} {done : Except NfsStat Unit × Fs} (ha : Answers h done) :
    Answers (h.map fun _ => ()) done := by
  refine ⟨?_, ha.alike, fun e he => ?_⟩
  · rw [← ha.answer]
    unfold Handled.map
    cases h.answer with
    | error e => rfl
    | ok a => rfl
  · refine ha.error e ?_
    unfold Handled.map at he
    cases hanswer : h.answer with
    | error e' =>
      rw [hanswer] at he
      cases he
      rfl
    | ok a => simp [hanswer, Except.map] at he

theorem createNode_answers {α : Type} {now dirid : Nat} {filename : Bytes} {answer : VfsNode → Fs → α}
    {h : Handled α} (heq : fs.createNode g now dirid filename fault answer = some h) :
    Answers h (fs.act g fault (.create dirid filename)) := by
  unfold createNode at heq
  simp only [act]
  cases hmade : fs.vfs.createFile g dirid (fromUtf8Lossy filename) .regularFile with
  | mk res vfs =>
    simp only [hmade] at heq ⊢
    cases res with
    | error e =>
      cases heq
      exact answers_error _ _
    | ok node =>
      simp only at heq ⊢
      cases hst : fs.staging.createFile node.id fault with
      | mk res staging =>
        simp only [hst] at heq ⊢
        cases res with
        | error e =>
          cases heq
          exact answers_error _ _
        | ok _ => exact answers_ok (logChild_answer heq) (logChild_alike heq)

theorem handle_answers {now : Nat} {op : NfsOp} {h : Handled Unit} (heq : fs.handle g now fault op = some h) :
    Answers h (fs.act g fault op) := by
  cases op with
  | create dirid filename =>
    obtain ⟨h', hop, rfl⟩ := Option.map_eq_some_iff.mp heq
    exact (createNode_answers hop).map
  | createExclusive dirid filename =>
    obtain ⟨h', hop, rfl⟩ := Option.map_eq_some_iff.mp heq
    exact (createNode_answers hop).map
  | mkdir dirid dirname =>
    obtain ⟨h', hop, rfl⟩ := Option.map_eq_some_iff.mp heq
    unfold mkdir at hop
    simp only [act]
    cases hmk : fs.vfs.mkdir g dirid (fromUtf8Lossy dirname) with
    | mk res vfs =>
      simp only [hmk] at hop ⊢
      cases res with
      | error e =>
        cases hop
        exact (answers_error _ _).map
      | ok node => exact (answers_ok (logChild_answer hop) (logChild_alike hop)).map
  | write id offset data =>
    obtain ⟨h', hop, rfl⟩ := Option.map_eq_some_iff.mp heq
    unfold write at hop
    simp only [act]
    cases happly : fs.applyWrite g id offset data fault with
    | mk res fs' =>
      simp only [happly] at hop ⊢
      cases res with
      | error e =>
        cases hop
        exact (answers_error _ _).map
      | ok node => exact (answers_ok (logFile_answer hop) (logFile_alike hop)).map
  | setattr id size =>
    obtain ⟨h', hop, rfl⟩ := Option.map_eq_some_iff.mp heq
    cases size with
    | none =>
      simp only [setattr] at hop
      simp only [act]
      cases hnode : fs.liveNode id with
      | error e =>
        simp only [hnode] at hop
        cases hop
        exact (answers_error _ _).map
      | ok node =>
        simp only [hnode] at hop
        cases hop
        exact (answers_ok ⟨_, rfl⟩ (.refl fs)).map
    | some newSize =>
      simp only [setattr] at hop
      simp only [act]
      cases happly : fs.applySetSize g id newSize fault with
      | mk res fs' =>
        simp only [happly] at hop ⊢
        cases res with
        | error e =>
          cases hop
          exact (answers_error _ _).map
        | ok node => exact (answers_ok (logFile_answer hop) (logFile_alike hop)).map
  | remove dirid filename =>
    unfold handle remove at heq
    simp only [act]
    cases hrm : fs.vfs.remove g dirid (fromUtf8Lossy filename) with
    | mk res vfs =>
      simp only [hrm] at heq ⊢
      cases res with
      | error e =>
        cases heq
        exact answers_error _ _
      | ok node => exact answers_ok (logChild_answer heq) (logChild_alike heq)
  | rename fd fn td tn =>
    unfold handle rename at heq
    simp only at heq
    simp only [act]
    split at heq
    · cases happly : fs.applyRename g fd (fromUtf8Lossy fn) td (fromUtf8Lossy tn) with
      | mk res fs' =>
        simp only [happly] at heq ⊢
        cases res with
        | error e =>
          cases heq
          exact answers_error _ _
        | ok _ =>
          cases heq
          refine answers_ok ⟨_, rfl⟩ ?_
          exact (recordMutation_alike fs' now _).trans (recordMutation_alike _ now _)
    · cases heq

/-! ## What holds in every state -/

/-- A staged node has its file, what was removed has no name any more, and there is no node 0. -/
structure Sound (fs : Fs) : Prop where
  wellFormed : fs.vfs.WellFormed
  zero : fs.vfs.nodes 0 = none
  backed : ∀ i, fs.staging.isStaged i = true → ∃ b, fs.staging.files i = some b
  known : ∀ i, fs.staging.isStaged i = true → ∃ n, fs.vfs.nodes i = some n
  removed : ∀ i, fs.staging.isDeleted i = true →
    i ≠ rootInode ∧ (∃ n, fs.vfs.nodes i = some n) ∧ ∀ k, fs.vfs.childMap k ≠ some i

theorem Sound.new (rootOid : Str) : (Fs.new rootOid).Sound where
  wellFormed := .new rootOid
  zero := rfl
  backed i hi := by simp [Fs.new, StagingStore.isStaged, StagingStore.new] at hi
  known i hi := by simp [Fs.new, StagingStore.isStaged, StagingStore.new] at hi
  removed i hi := by simp [Fs.new, StagingStore.isDeleted, StagingStore.new] at hi

theorem Sound.alike (hs : fs.Sound) (h : fs.Alike fs') : fs'.Sound := by
  obtain ⟨_, _, _, rfl⟩ := h
  exact ⟨hs.wellFormed, hs.zero, hs.backed, hs.known, hs.removed⟩

theorem Sound.setVfs (hs : fs.Sound) {v' : VfsManager} (hv' : v'.WellFormed) (hsettles : fs.vfs.Settles v') :
    (fs.setVfs v').Sound where
  wellFormed := hv'
  zero := hsettles.zero hs.zero
  backed := hs.backed
  known i hi := by
    obtain ⟨n, hn⟩ := hs.known i hi
    exact hsettles.nodes i n hn
  removed i hi := by
    obtain ⟨hroot, ⟨n, hn⟩, hfree⟩ := hs.removed i hi
    exact ⟨hroot, hsettles.nodes i n hn, hsettles.unnamed i n hn hfree⟩

theorem Sound.call (hs : fs.Sound) (call : VfsCall) : (fs.setVfs (call.apply g fs.vfs)).Sound :=
  hs.setVfs (hs.wellFormed.apply call) (VfsManager.apply_settles hs.wellFormed call)

theorem Sound.populated (hs : fs.Sound) (d : Nat) : (fs.setVfs (fs.vfs.ensureDirPopulated g d).2).Sound :=
  hs.setVfs (hs.wellFormed.ensureDirPopulated d) (VfsManager.ensureDirPopulated_changes hs.wellFormed d).settles

/-- A staging store in which more nodes may be staged, if they are there. -/
theorem Sound.setStaging (hs : fs.Sound) {st : StagingStore} (hdel : st.deletedNodes = fs.staging.deletedNodes)
    (hst : ∀ i, st.isStaged i = true → (∃ n, fs.vfs.nodes i = some n) ∧ ∃ b, st.files i = some b) :
    Sound { fs with staging := st } where
  wellFormed := hs.wellFormed
  zero := hs.zero
  backed i hi := (hst i hi).2
  known i hi := (hst i hi).1
  removed i hi := hs.removed i (by unfold StagingStore.isDeleted at hi ⊢; rwa [← hdel])

theorem Sound.store (hs : fs.Sound) {i : Nat} (hi : ∃ n, fs.vfs.nodes i = some n) (content : Bytes) :
    Sound { fs with staging := fs.staging.stored i content } := by
  refine hs.setStaging rfl fun j hj => ?_
  by_cases hji : j = i
  · subst hji
    exact ⟨hi, content, by simp⟩
  · have hold : fs.staging.isStaged j = true := by simpa [StagingStore.isStaged, hji] using hj
    exact ⟨hs.known j hold, by simpa [hji] using hs.backed j hold⟩

/-- A file that is made or changed without being staged. -/
theorem Sound.setFiles (hs : fs.Sound) {st : StagingStore} (hnodes : st.stagedNodes = fs.staging.stagedNodes)
    (hdel : st.deletedNodes = fs.staging.deletedNodes)
    (hfiles : ∀ i b, fs.staging.files i = some b → ∃ b', st.files i = some b') :
    Sound { fs with staging := st } := by
  refine hs.setStaging hdel fun i hi => ?_
  have hold : fs.staging.isStaged i = true := by
    unfold StagingStore.isStaged at hi ⊢
    rwa [← hnodes]
  obtain ⟨b, hb⟩ := hs.backed i hold
  exact ⟨hs.known i hold, hfiles i b hb⟩

/-- What a write or a change of the size does to a file that is live. -/
theorem act_edit (g : GitEngine) (fs : Fs) (fault : Option IoFault) (edit : StagingEdit) (id : Nat) :
    (¬ fs.LiveFile id ∧ ∃ e, fs.act g fault (edit.toOp id) = (.error e, fs)) ∨
    ∃ node, fs.liveNode id = .ok node ∧ node.isDir = false ∧
      ((∃ e st, edit.run fs.staging id (Replay.baseData g fs.staging node) fault = (.error e, st) ∧
          fs.act g fault (edit.toOp id) = (.error .io, { fs with staging := st })) ∨
        ∃ st size, edit.run fs.staging id (Replay.baseData g fs.staging node) fault = (.ok (), st) ∧
          fs.act g fault (edit.toOp id) =
            (.ok (), { fs with staging := st, vfs := fs.vfs.updateFileSize id size })) := by
  cases edit with
  | write offset data =>
    simp only [StagingEdit.toOp, act, applyWrite, StagingEdit.run]
    cases hnode : fs.liveNode id with
    | error e =>
      refine .inl ⟨?_, e, rfl⟩
      rintro ⟨n, hn, -⟩
      simp [hnode] at hn
    | ok node =>
      simp only
      cases hdir : node.isDir with
      | true => exact .inl ⟨fun hlive => by simp [liveFile_ok hnode hlive] at hdir, _, rfl⟩
      | false =>
        refine .inr ⟨node, rfl, hdir, ?_⟩
        rcases fs.staging.writeAt id offset data (Replay.baseData g fs.staging node) fault with ⟨e | newLen, st⟩
        · exact .inl ⟨e, st, rfl, rfl⟩
        · exact .inr ⟨st, newLen, rfl, rfl⟩
  | truncate newSize =>
    simp only [StagingEdit.toOp, act, applySetSize, StagingEdit.run]
    cases hnode : fs.liveNode id with
    | error e =>
      refine .inl ⟨?_, e, rfl⟩
      rintro ⟨n, hn, -⟩
      simp [hnode] at hn
    | ok node =>
      simp only
      cases hdir : node.isDir with
      | true => exact .inl ⟨fun hlive => by simp [liveFile_ok hnode hlive] at hdir, _, rfl⟩
      | false =>
        refine .inr ⟨node, rfl, hdir, ?_⟩
        rcases fs.staging.truncate id newSize (Replay.baseData g fs.staging node) fault with ⟨e | _, st⟩
        · exact .inl ⟨e, st, rfl, rfl⟩
        · exact .inr ⟨st, newSize, rfl, rfl⟩

theorem Sound.edit (hs : fs.Sound) (edit : StagingEdit) (id : Nat) : (fs.act g fault (edit.toOp id)).2.Sound := by
  obtain ⟨-, e, heq⟩ | ⟨node, hnode, -, ⟨e, st, hrun, heq⟩ | ⟨st, size, hrun, heq⟩⟩ := act_edit g fs fault edit id
  · rw [heq]
    exact hs
  · rw [heq]
    obtain ⟨file, rfl, hfile⟩ := StagingStore.run_error_store hrun
    refine hs.setFiles rfl rfl fun i b hb => ?_
    by_cases hi : i = id
    · subst hi
      exact ⟨_, (Function.update_self _ _ _).trans (hfile b hb)⟩
    · exact ⟨b, (Function.update_of_ne hi _ _).trans hb⟩
  · rw [heq, StagingStore.run_ok_store hrun]
    have hstored := hs.store ⟨node, (liveNode_ok hnode).1⟩ (edit.apply (fs.staging.opened id (Replay.baseData g fs.staging node)))
    exact hstored.setVfs (hs.wellFormed.updateFileSize id size) (VfsManager.updateFileSize_settles _ _ _)

/-- A file that is created is a node that is there. -/
theorem createFile_there {v v' : VfsManager} (hv : v.WellFormed) {dirid : Nat} {name : Str} {node : VfsNode}
    (h : v.createFile g dirid name .regularFile = (.ok node, v')) : v'.nodes node.id = some node := by
  obtain ⟨e, he, -⟩ | ⟨m, hm, hn, -⟩ := VfsManager.createFile_cases (g := g) hv dirid name .regularFile
  · simp [h] at he
  · rw [h] at hm hn
    cases hm
    exact hn

/-- What `remove` takes away has no name any more. -/
theorem remove_unnamed {v v' : VfsManager} (hv : v.WellFormed) {dirid : Nat} {name : Str} {node : VfsNode}
    (h : v.remove g dirid name = (.ok node, v')) :
    node.id ≠ rootInode ∧ (∃ n, v'.nodes node.id = some n) ∧ ∀ k, v'.childMap k ≠ some node.id := by
  obtain ⟨e, he, -⟩ | ⟨v₁, i, n, hpop, hi, hn, heq⟩ := VfsManager.remove_cases g v dirid name
  · simp [h] at he
  · obtain ⟨hv₁, -⟩ := hv.ensureDirPopulated_ok hpop
    obtain ⟨m, hm, -, -, hroot⟩ := VfsManager.mapped_node hv₁ hi
    rw [h, Prod.mk.injEq, Except.ok.injEq] at heq
    obtain ⟨rfl, rfl⟩ := heq
    have hid : n.id = i := hv₁.id_eq i n hn
    simp only [hid]
    refine ⟨hroot, ⟨_, by simp [hn]; rfl⟩, fun k hk => ?_⟩
    simp only [VfsManager.setChild_childMap, VfsManager.dropChild_childMap, VfsManager.modifyNode_childMap] at hk
    split_ifs at hk with hkey
    exact hkey (VfsManager.mapped_unique hv₁ hk hi)

theorem Sound.createNode (hs : fs.Sound) (dirid : Nat) (filename : Bytes) :
    (fs.act g fault (.create dirid filename)).2.Sound := by
  have hcall := hs.call (g := g) (.createFile dirid (fromUtf8Lossy filename) .regularFile)
  simp only [act, VfsCall.apply] at hcall ⊢
  cases hmade : fs.vfs.createFile g dirid (fromUtf8Lossy filename) .regularFile with
  | mk res vfs =>
    rw [hmade] at hcall
    cases res with
    | error e => exact hcall
    | ok node =>
      cases fault with
      | some fault => exact hcall
      | none => exact hcall.store ⟨node, createFile_there hs.wellFormed hmade⟩ []

theorem Sound.act (hs : fs.Sound) (fault : Option IoFault) (op : NfsOp) : (fs.act g fault op).2.Sound := by
  cases op with
  | create dirid filename => exact hs.createNode dirid filename
  | createExclusive dirid filename => exact hs.createNode dirid filename
  | mkdir dirid dirname =>
    have hcall := hs.call (g := g) (.mkdir dirid (fromUtf8Lossy dirname))
    simp only [Fs.act, VfsCall.apply] at hcall ⊢
    rcases hmk : fs.vfs.mkdir g dirid (fromUtf8Lossy dirname) with ⟨e | node, vfs⟩ <;>
    · rw [hmk] at hcall
      exact hcall
  | write id offset data => exact hs.edit (.write offset data) id
  | setattr id size =>
    cases size with
    | none => exact hs
    | some newSize => exact hs.edit (.truncate newSize) id
  | remove dirid filename =>
    have hcall := hs.call (g := g) (.remove dirid (fromUtf8Lossy filename))
    simp only [Fs.act, VfsCall.apply] at hcall ⊢
    rcases hrm : fs.vfs.remove g dirid (fromUtf8Lossy filename) with ⟨e | node, vfs⟩
    · rw [hrm] at hcall
      exact hcall
    · rw [hrm] at hcall
      refine ⟨hcall.wellFormed, hcall.zero, hcall.backed, hcall.known, fun i hi => ?_⟩
      rcases List.mem_insert_iff.mp (List.contains_iff_mem.mp hi) with rfl | hmem
      · exact remove_unnamed hs.wellFormed hrm
      · exact hcall.removed i (List.contains_iff_mem.mpr hmem)
  | rename fd fn td tn =>
    have hcall := hs.call (g := g) (.rename fd (fromUtf8Lossy fn) td (fromUtf8Lossy tn))
    simp only [Fs.act, applyRename, VfsCall.apply] at hcall ⊢
    rcases hren : fs.vfs.rename g fd (fromUtf8Lossy fn) td (fromUtf8Lossy tn) with ⟨e | _, vfs⟩ <;>
    · rw [hren] at hcall
      exact hcall

/-- Every state of a running server: what requests leave, answered or not, and what commits leave. -/
inductive Reached : Fs → Prop
  | new (rootOid : Str) : Reached (Fs.new rootOid)
  | answered {fs : Fs} {h : Handled Unit} (g : GitEngine) (now : Nat) (fault : Option IoFault) (op : NfsOp)
      (hr : Reached fs) (heq : fs.handle g now fault op = some h) : Reached h.fs
  | unanswered {fs : Fs} (g : GitEngine) (now : Nat) (fault : Option IoFault) (op : NfsOp) (hr : Reached fs)
      (heq : fs.handle g now fault op = none) : Reached (fs.unanswered g op)
  | read {fs : Fs} (g : GitEngine) (id offset count : Nat) (hr : Reached fs) : Reached (fs.read g id offset count).2
  | getattr {fs : Fs} (g : GitEngine) (id : Nat) (hr : Reached fs) : Reached (fs.getattr g id).2
  | lookup {fs : Fs} (g : GitEngine) (dirid : Nat) (filename : Bytes) (hr : Reached fs) :
      Reached (fs.lookup g dirid filename).2
  | readdir {fs : Fs} (g : GitEngine) (dirid startAfter maxEntries : Nat) (hr : Reached fs) :
      Reached (fs.readdir g dirid startAfter maxEntries).2
  | committed {fs : Fs} (fault : Option ResetFault) (hasUncommittedChanges : Bool) (hr : Reached fs) :
      Reached { fs with staging := (fs.staging.reset fault).2, hasUncommittedChanges }

theorem unanswered_act (g : GitEngine) (fs : Fs) (op : NfsOp) :
    fs.unanswered g op = fs ∨ fs.unanswered g op = (fs.act g none op).2 := by
  cases op with
  | setattr id size => cases size with
    | none => exact .inl rfl
    | some newSize => exact .inr rfl
  | rename fd fn td tn => exact .inl rfl
  | create dirid filename =>
    refine .inr ?_
    simp only [unanswered, applyCreate, act]
    rcases fs.vfs.createFile g dirid (fromUtf8Lossy filename) .regularFile with ⟨e | node, vfs⟩ <;> rfl
  | createExclusive dirid filename =>
    refine .inr ?_
    simp only [unanswered, applyCreate, act]
    rcases fs.vfs.createFile g dirid (fromUtf8Lossy filename) .regularFile with ⟨e | node, vfs⟩ <;> rfl
  | mkdir dirid dirname =>
    refine .inr ?_
    simp only [unanswered, act]
    rcases fs.vfs.mkdir g dirid (fromUtf8Lossy dirname) with ⟨e | node, vfs⟩ <;> rfl
  | write id offset data => exact .inr rfl
  | remove dirid filename =>
    refine .inr ?_
    simp only [unanswered, applyRemove, act]
    rcases fs.vfs.remove g dirid (fromUtf8Lossy filename) with ⟨e | node, vfs⟩ <;> rfl

theorem Sound.updateFileSize (hs : fs.Sound) (id size : Nat) : (fs.setVfs (fs.vfs.updateFileSize id size)).Sound :=
  hs.setVfs (hs.wellFormed.updateFileSize id size) (VfsManager.updateFileSize_settles _ _ _)

theorem Sound.committed (hs : fs.Sound) (fault : Option ResetFault) (hasUncommittedChanges : Bool) :
    Sound { fs with staging := (fs.staging.reset fault).2, hasUncommittedChanges } := by
  have hclear : (fs.staging.reset fault).2.stagedNodes = ∅ ∧ (fs.staging.reset fault).2.deletedNodes = [] := by
    unfold StagingStore.reset
    split <;> exact ⟨rfl, rfl⟩
  refine ⟨hs.wellFormed, hs.zero, fun i hi => ?_, fun i hi => ?_, fun i hi => ?_⟩
  · simp [StagingStore.isStaged, hclear.1] at hi
  · simp [StagingStore.isStaged, hclear.1] at hi
  · simp [StagingStore.isDeleted, hclear.2] at hi

theorem Sound.read (hs : fs.Sound) (id offset count : Nat) : (fs.read g id offset count).2.Sound := by
  unfold Fs.read
  split
  · exact hs
  · split
    · exact hs
    · split
      · exact hs
      · split
        · exact hs
        · split
          · exact hs
          · simp only
            split <;> exact hs.updateFileSize _ _

theorem Sound.getattr (hs : fs.Sound) (id : Nat) : (fs.getattr g id).2.Sound := by
  unfold Fs.getattr
  split
  · exact hs
  · simp only
    split_ifs
    · split
      · exact hs.updateFileSize _ _
      · exact hs
    · exact hs

theorem Sound.lookup (hs : fs.Sound) (dirid : Nat) (filename : Bytes) : (fs.lookup g dirid filename).2.Sound := by
  have hcall := hs.call (g := g) (.lookup dirid (fromUtf8Lossy filename))
  unfold Fs.lookup
  split
  · rename_i heq
    simp only [VfsCall.apply, heq] at hcall
    exact hcall
  · rename_i heq
    simp only [VfsCall.apply, heq] at hcall
    exact hcall

theorem Sound.readdir (hs : fs.Sound) (dirid startAfter maxEntries : Nat) :
    (fs.readdir g dirid startAfter maxEntries).2.Sound := by
  have hcall := hs.call (g := g) (.listDir dirid)
  unfold Fs.readdir
  split
  · exact hs
  · split
    · exact hs
    · split
      · rename_i heq
        simp only [VfsCall.apply, heq] at hcall
        exact hcall
      · rename_i heq
        simp only [VfsCall.apply, heq] at hcall
        exact hcall

theorem Reached.sound (h : fs.Reached) : fs.Sound := by
  induction h with
  | new rootOid => exact .new rootOid
  | answered g now fault op _ heq ih => exact (ih.act fault op).alike (handle_answers heq).alike
  | @unanswered fs g now fault op _ _ ih =>
    rcases unanswered_act g fs op with heq | heq
    · rw [heq]
      exact ih
    · rw [heq]
      exact ih.act none op
  | read g id offset count _ ih => exact ih.read id offset count
  | getattr g id _ ih => exact ih.getattr id
  | lookup g dirid filename _ ih => exact ih.lookup dirid filename
  | readdir g dirid startAfter maxEntries _ ih => exact ih.readdir dirid startAfter maxEntries
  | committed fault flag _ ih => exact ih.committed fault flag

/-! ## What is seen of a place -/

/-- The bytes of a blob, as far as it can be fetched. -/
def blobBytes (g : GitEngine) (oid : Str) : Option Bytes := if oid = [] then some [] else g.blobs oid

def fileBytes (g : GitEngine) (fs : Fs) (id : Nat) (oid : Str) : Option Bytes :=
  if fs.staging.isStaged id then fs.staging.files id else blobBytes g oid

/-- What a client sees at a place: of a file its bytes, and the size that its attributes show. -/
structure Seen where
  inode : Option Nat
  mode : TreeEntryMode
  isDir : Bool
  bytes : Option Bytes
  size : Nat
  deriving DecidableEq, Repr

def seenFile (inode : Option Nat) (mode : TreeEntryMode) (isDir : Bool) (bytes : Option Bytes) (size : Nat) : Seen :=
  if isDir then ⟨inode, mode, true, none, 0⟩ else ⟨inode, mode, false, bytes, size⟩

def seen (g : GitEngine) (fs : Fs) : Place → Option Seen
  | .node i => (fs.vfs.nodes i).map fun n =>
      seenFile (some i) n.mode n.isDir (fs.fileBytes g i n.oid) (fs.nodeToFattr3 g n).size
  | .entry e => some (seenFile none e.mode e.mode.isDir (blobBytes g e.oid) (VfsManager.initialSize g e))

def seenAt (g : GitEngine) (fs : Fs) (path : List Str) : Option Seen :=
  (VfsManager.placeAt g fs.vfs path).bind (fs.seen g)

/-- Seen again: an inode that was given stays, and a place may be given one. -/
structure Seen.Keeps (s s' : Seen) : Prop where
  inode : ∀ i, s.inode = some i → s'.inode = some i
  mode : s'.mode = s.mode
  isDir : s'.isDir = s.isDir
  bytes : s'.bytes = s.bytes
  size : s'.size = s.size

theorem Seen.Keeps.refl (s : Seen) : s.Keeps s := ⟨fun _ => id, rfl, rfl, rfl, rfl⟩

theorem Seen.Keeps.trans {s s' s'' : Seen} (h : s.Keeps s') (h' : s'.Keeps s'') : s.Keeps s'' where
  inode i hi := h'.inode i (h.inode i hi)
  mode := h'.mode.trans h.mode
  isDir := h'.isDir.trans h.isDir
  bytes := h'.bytes.trans h.bytes
  size := h'.size.trans h.size

/-- The same paths are visible, with the same bytes and sizes. -/
def Unchanged (g : GitEngine) (fs fs' : Fs) : Prop :=
  ∀ path, Option.Rel Seen.Keeps (fs.seenAt g path) (fs'.seenAt g path)

theorem Unchanged.refl (g : GitEngine) (fs : Fs) : Unchanged g fs fs := by
  intro path
  cases fs.seenAt g path with
  | none => exact .none
  | some s => exact .some (.refl s)

theorem Unchanged.trans {fs'' : Fs} (h : Unchanged g fs fs') (h' : Unchanged g fs' fs'') : Unchanged g fs fs'' := by
  intro path
  apply Walk.rel_trans (T := Seen.Keeps) ?_ (h path) (h' path)
  intro s s' s'' hs hs'
  exact hs.trans hs'

theorem Alike.seenAt (h : fs.Alike fs') (path : List Str) : fs'.seenAt g path = fs.seenAt g path := by
  obtain ⟨_, _, _, rfl⟩ := h
  rfl

theorem seenFile_keeps (inode : Option Nat) (i : Nat) (mode : TreeEntryMode) (isDir : Bool) (bytes : Option Bytes)
    (size : Nat) (h : inode = none ∨ inode = some i) :
    (seenFile inode mode isDir bytes size).Keeps (seenFile (some i) mode isDir bytes size) := by
  unfold seenFile
  rcases h with rfl | rfl <;> split_ifs <;> exact ⟨by simp, rfl, rfl, rfl, rfl⟩

/-- A place is seen the same after directories were populated. -/
theorem Sound.seen_becomes (hs : fs.Sound) {v' : VfsManager} (ht : VfsManager.Tracks g fs.vfs v') {a b : Place}
    (h : VfsManager.Becomes g fs.vfs v' a b) : Option.Rel Seen.Keeps (fs.seen g a) ((fs.setVfs v').seen g b) := by
  cases h with
  | @node i n hn =>
    have hsame : (fs.setVfs v').seen g (.node i) = fs.seen g (.node i) := by
      show (v'.nodes i).map _ = (fs.vfs.nodes i).map _
      rw [ht.nodes i n hn, hn]
      rfl
    rw [hsame, seen, hn]
    exact .some (.refl _)
  | entry e => exact .some (.refl _)
  | @made d j e hnew hn hids =>
    have hunstaged : fs.staging.isStaged j = false := by
      by_contra hst
      obtain ⟨n, hn⟩ := hs.known j (by simpa using hst)
      simp [hnew] at hn
    have hlookup : fs.staging.getSize j = none := by
      unfold StagingStore.isStaged at hunstaged
      simpa [StagingStore.getSize] using hunstaged
    have hst : (fs.setVfs v').staging = fs.staging := rfl
    have hbytes : (fs.setVfs v').fileBytes g j e.oid = blobBytes g e.oid := by
      unfold fileBytes
      rw [hst, hunstaged, if_neg Bool.false_ne_true]
    have hfile : (fs.setVfs v').seen g (.node j) =
        some (seenFile (some j) e.mode e.mode.isDir (blobBytes g e.oid) (VfsManager.initialSize g e)) := by
      show (v'.nodes j).map _ = _
      rw [hn, Option.map_some]
      simp only [VfsManager.entryNode, hbytes]
      unfold seenFile
      split_ifs with hdir
      · rfl
      · simp only [nodeToFattr3, hst, hlookup, Option.none_or, VfsManager.initialSize, if_neg hdir]
        cases g.blobSize e.oid <;> rfl
    rw [hfile]
    exact .some (seenFile_keeps none j _ _ _ _ (.inl rfl))

theorem rel_bind_seen {v' : VfsManager} {a b : Option Place}
    (h : Option.Rel (VfsManager.Becomes g fs.vfs v') a b)
    (hseen : ∀ a b, VfsManager.Becomes g fs.vfs v' a b → Option.Rel Seen.Keeps (fs.seen g a) (fs'.seen g b)) :
    Option.Rel Seen.Keeps (a.bind (fs.seen g)) (b.bind (fs'.seen g)) := by
  cases h with
  | none => exact .none
  | some hr => exact hseen _ _ hr

theorem root_becomes (hs : fs.Sound) (v' : VfsManager) :
    VfsManager.Becomes g fs.vfs v' (.node rootInode) (.node rootInode) := by
  obtain ⟨n, hn, -⟩ := hs.wellFormed.root
  exact .node hn

/-- Populating directories changes nothing that is seen. -/
theorem Sound.unchanged (hs : fs.Sound) {v' : VfsManager} (ht : VfsManager.Tracks g fs.vfs v') :
    Unchanged g fs (fs.setVfs v') := by
  intro path
  exact rel_bind_seen (ht.place (root_becomes hs v') path) fun _ _ h => hs.seen_becomes ht h

theorem Sound.populated_unchanged (hs : fs.Sound) (d : Nat) :
    Unchanged g fs (fs.setVfs (fs.vfs.ensureDirPopulated g d).2) :=
  hs.unchanged (VfsManager.ensureDirPopulated_tracks hs.wellFormed d)

/-- An inode that was found before the directories were populated is found by the same path. -/
theorem placeAt_populated (hs : fs.Sound) {v' : VfsManager} (ht : VfsManager.Tracks g fs.vfs v') {path : List Str}
    {i : Nat} {n : VfsNode} (hn : fs.vfs.nodes i = some n) :
    VfsManager.placeAt g v' path = some (.node i) ↔ VfsManager.placeAt g fs.vfs path = some (.node i) := by
  have hplace := ht.place (root_becomes hs v') path
  unfold VfsManager.placeAt
  constructor
  · intro h
    rw [h] at hplace
    obtain ⟨a, ha, hr⟩ := Walk.rel_some_right hplace
    rw [ha]
    cases hr with
    | node _ => rfl
    | made hnew _ _ => simp [hn] at hnew
  · intro h
    rw [h] at hplace
    obtain ⟨b, hb, hr⟩ := Walk.rel_some_left hplace
    rw [hb]
    cases hr
    rfl

/-- A node that a change leaves alone is seen as before. -/
theorem seen_kept {i : Nat} (hn : fs'.vfs.nodes i = fs.vfs.nodes i) (hid : ∀ n, fs.vfs.nodes i = some n → n.id = i)
    (hst : fs'.staging.stagedNodes.lookup i = fs.staging.stagedNodes.lookup i)
    (hfile : fs.staging.isStaged i = true → fs'.staging.files i = fs.staging.files i) :
    fs'.seen g (.node i) = fs.seen g (.node i) := by
  have hstaged : fs'.staging.isStaged i = fs.staging.isStaged i := by
    unfold StagingStore.isStaged
    rw [hst]
  simp only [seen, hn]
  cases hnode : fs.vfs.nodes i with
  | none => rfl
  | some n =>
    have hbytes : fs'.fileBytes g i n.oid = fs.fileBytes g i n.oid := by
      unfold fileBytes
      rw [hstaged]
      split_ifs with h
      · exact hfile h
      · rfl
    obtain rfl := hid n hnode
    simp only [Option.map_some, hbytes, nodeToFattr3, StagingStore.getSize, hst]

end Fs

end GitNfs
