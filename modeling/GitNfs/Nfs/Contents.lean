import GitNfs.Nfs.Arrays

/-! # The contents of files

Between two commits a file is an array of bytes. It starts as the blob of its entry in the base, or empty when
it is created, and only the requests for it change it.
-/

namespace GitNfs

namespace Fs

variable {g : GitEngine} {fs fs' : Fs}

/-! ## Request by request -/

section Requests

variable {g' : GitEngine}

/-- The bytes that a change of a file starts from. -/
theorem opened_content (hb : fs.Backed) (hm : g'.Mirrors g) {i : Nat} (hf : fs.Fetches g' i) {n : VfsNode}
    (hn : fs.liveNode i = .ok n) (hdir : n.isDir = false) :
    fs.content g i = some (fs.staging.opened i (Replay.baseData g' fs.staging n)) := by
  obtain ⟨hnode, -, -⟩ := liveNode_ok hn
  rw [content_of hn hdir]
  unfold StagingStore.opened Replay.baseData
  rw [hb.wellFormed.id_eq i n hnode]
  cases hst : fs.staging.isStaged i with
  | true =>
    obtain ⟨b, hfile⟩ := hb.staged_file hst
    simp [hfile]
  | false =>
    obtain ⟨b, hblob⟩ := hf n hn hdir hst
    have hoid := hb.based i n hnode hdir hst
    simp [hb.unstaged_file hst, hoid, GitEngine.getBlob, hblob, hm.blobs _ _ hblob, Except.toOption]

theorem liveFile_ok {i : Nat} {n : VfsNode} (hn : fs.liveNode i = .ok n) (h : fs.LiveFile i) :
    n.isDir = false := by
  obtain ⟨n', hn', hdir⟩ := h
  rw [hn, Except.ok.injEq] at hn'
  exact hn' ▸ hdir

theorem ofList_writeBytes (c : Bytes) (offset : Nat) (data : Bytes) :
    Extent.ofList (writeBytes c offset data) = (Extent.ofList c).write offset data := by
  unfold writeBytes
  split_ifs with hdata
  · rw [hdata, Extent.write_nil]
  · exact Extent.ofList_write c offset hdata

theorem ofList_setLen (c : Bytes) (size : Nat) :
    Extent.ofList (setLen c size) = (Extent.ofList c).resize size := Extent.ofList_resize c size

/-- A change of a live file is stored for it. -/
theorem stores_live (hg : g.ParsedTrees) (hb : fs.Backed) (hm : g'.Mirrors g) {i : Nat}
    (hf : fs.Fetches g' i) {n : VfsNode} (hn : fs.liveNode i = .ok n) (hdir : n.isDir = false) (size : Nat)
    (c : Bytes) {ed : Extent.Edit UInt8}
    (hed : ed.apply (Extent.ofList (fs.staging.opened i (Replay.baseData g' fs.staging n))) = Extent.ofList c) :
    let fs' := { fs with staging := fs.staging.stored i c, vfs := fs.vfs.updateFileSize i size }
    fs'.Backed ∧ Edited g fs fs' (some (i, ed)) := by
  have hgrows : VfsManager.Grows g fs.vfs (fs.vfs.updateFileSize i size) :=
    VfsManager.updateFileSize_grows fs.vfs i size
  refine stores hg hb (hb.wellFormed.updateFileSize i size) c (fate_node (hgrows i) (liveNode_ok hn).1)
    (fun j _ => hgrows j) rfl rfl (fun a ha => ?_) fun hnot _ => absurd ⟨n, hn, hdir⟩ hnot
  unfold array at ha
  rw [opened_content hb hm hf hn hdir] at ha
  cases ha
  exact hed

theorem applyWrite_edits (hg : g.ParsedTrees) (hb : fs.Backed) (hm : g'.Mirrors g) {i : Nat}
    (hf : fs.Fetches g' i) (offset : Nat) (data : Bytes) :
    (fs.applyWrite g' i offset data none).2.Backed ∧
      Edited g fs (fs.applyWrite g' i offset data none).2 (some (i, .write offset data)) := by
  have hstay (hnot : ¬ fs.LiveFile i) : fs.Backed ∧ Edited g fs fs (some (i, .write offset data)) := by
    refine ⟨hb, .refl fun j ed he => ?_⟩
    cases he
    exact hnot
  unfold applyWrite
  split
  · rename_i hn
    exact hstay fun ⟨n, hn', _⟩ => by simp [hn] at hn'
  · rename_i n hn
    split_ifs with hdir
    · exact hstay fun hlive => by simp [liveFile_ok hn hlive] at hdir
    · rw [StagingStore.writeAt_ok]
      exact stores_live hg hb hm hf hn (by simpa using hdir) _ _ (ofList_writeBytes _ _ _).symm

theorem applySetSize_edits (hg : g.ParsedTrees) (hb : fs.Backed) (hm : g'.Mirrors g) {i : Nat}
    (hf : fs.Fetches g' i) (size : Nat) :
    (fs.applySetSize g' i size none).2.Backed ∧
      Edited g fs (fs.applySetSize g' i size none).2 (some (i, .resize size)) := by
  have hstay (hnot : ¬ fs.LiveFile i) : fs.Backed ∧ Edited g fs fs (some (i, .resize size)) := by
    refine ⟨hb, .refl fun j ed he => ?_⟩
    cases he
    exact hnot
  unfold applySetSize
  split
  · rename_i hn
    exact hstay fun ⟨n, hn', _⟩ => by simp [hn] at hn'
  · rename_i n hn
    split_ifs with hdir
    · exact hstay fun hlive => by simp [liveFile_ok hn hlive] at hdir
    · rw [StagingStore.truncate_ok]
      exact stores_live hg hb hm hf hn (by simpa using hdir) _ _ (ofList_setLen _ _).symm

theorem applyCreate_edits (hg : g.ParsedTrees) (hb : fs.Backed) (hm : g'.Mirrors g) (dirid : Nat)
    (filename : Bytes) :
    (fs.applyCreate g' dirid filename).Backed ∧ Edited g fs (fs.applyCreate g' dirid filename)
      ((fs.vfs.createFile g' dirid (fromUtf8Lossy filename) .regularFile).1.toOption.map fun node =>
        (node.id, .clear)) := by
  have hv := hb.wellFormed.createFile (g := g') dirid (fromUtf8Lossy filename) .regularFile
  have hcases := VfsManager.createFile_cases (g := g') hb.wellFormed dirid (fromUtf8Lossy filename) .regularFile
  unfold applyCreate
  cases hmade : fs.vfs.createFile g' dirid (fromUtf8Lossy filename) .regularFile with
  | mk res v' =>
    rw [hmade] at hv hcases
    rcases hcases with ⟨e, rfl, hgrows⟩ | ⟨node, rfl, hnode, hfate⟩
    · exact quiet hg hb hv (fun i => (hgrows i).mirror hm.trees) rfl rfl fun _ => id
    · exact stores hg hb hv [] ⟨node, hnode⟩ (fun i hi => (hfate i hi).mirror hm.trees) rfl rfl
        (fun a _ => rfl) fun _ _ => ⟨rfl, rfl⟩

/-! ### What an answered request leaves -/

/-- The same but for what is noted for the next commit. -/
def Alike (fs fs' : Fs) : Prop :=
  ∃ changedPaths lastMutationTime hasUncommittedChanges,
    fs' = ⟨fs.vfs, { fs.staging with changedPaths }, lastMutationTime, hasUncommittedChanges⟩

theorem Alike.refl (fs : Fs) : fs.Alike fs := ⟨_, _, _, rfl⟩

theorem Alike.trans {fs'' : Fs} (h : fs.Alike fs') (h' : fs'.Alike fs'') : fs.Alike fs'' := by
  obtain ⟨_, _, _, rfl⟩ := h
  obtain ⟨_, _, _, rfl⟩ := h'
  exact ⟨_, _, _, rfl⟩

theorem Alike.edited {fs'' : Fs} {e : Option (Nat × Extent.Edit UInt8)} (h : fs'.Alike fs'')
    (hedit : fs'.Backed ∧ Edited g fs fs' e) : fs''.Backed ∧ Edited g fs fs'' e := by
  obtain ⟨_, _, _, rfl⟩ := h
  obtain ⟨hb, he⟩ := hedit
  exact ⟨⟨hb.wellFormed, hb.sized, hb.known, hb.based⟩, ⟨he.kept, he.new⟩⟩

theorem recordMutation_alike (fs : Fs) (now : Nat) (path : Str) : fs.Alike (fs.recordMutation now path) := by
  unfold recordMutation StagingStore.recordChangedPath
  simp only
  split_ifs
  · exact ⟨_, _, _, rfl⟩
  · exact ⟨_, _, _, rfl⟩

theorem logFile_alike {now : Nat} {node : VfsNode} {payload : Str → WalPayload} {h : Handled Fattr}
    (heq : fs.logFile g' now node payload = some h) : fs.Alike h.fs := by
  unfold logFile at heq
  split at heq
  · simp at heq
  · cases heq
    exact .refl fs
  · cases heq
    exact recordMutation_alike fs now _

theorem logChild_alike {α : Type} {now dirid : Nat} {name : Str} {payload : Str → WalPayload}
    {answer : Fs → α} {h : Handled α} (heq : fs.logChild now dirid name payload answer = some h) :
    fs.Alike h.fs := by
  obtain ⟨path, -, rfl⟩ := Option.map_eq_some_iff.mp heq
  exact recordMutation_alike fs now path

theorem createNode_alike {α : Type} {now dirid : Nat} {filename : Bytes} {answer : VfsNode → Fs → α}
    {h : Handled α} (heq : fs.createNode g' now dirid filename none answer = some h) :
    (fs.applyCreate g' dirid filename).Alike h.fs := by
  unfold createNode at heq
  unfold applyCreate
  cases hmade : fs.vfs.createFile g' dirid (fromUtf8Lossy filename) .regularFile with
  | mk res vfs =>
    simp only [hmade] at heq ⊢
    cases res with
    | error e =>
      cases heq
      exact .refl _
    | ok node => exact logChild_alike heq

/-- What a handler has changed when it answers. -/
def effect (g : GitEngine) (fs : Fs) : NfsOp → Fs
  | .rename fromDirid fromFilename toDirid toFilename =>
    fs.setVfs (fs.vfs.rename g fromDirid (fromUtf8Lossy fromFilename) toDirid (fromUtf8Lossy toFilename)).2
  | op => fs.unanswered g op

theorem handle_alike {now : Nat} {op : NfsOp} {h : Handled Unit} (heq : fs.handle g' now none op = some h) :
    (fs.effect g' op).Alike h.fs := by
  cases op with
  | create dirid filename =>
    obtain ⟨h', hop, rfl⟩ := Option.map_eq_some_iff.mp heq
    change Alike _ h'.fs
    exact createNode_alike hop
  | createExclusive dirid filename =>
    obtain ⟨h', hop, rfl⟩ := Option.map_eq_some_iff.mp heq
    change Alike _ h'.fs
    exact createNode_alike hop
  | mkdir dirid dirname =>
    obtain ⟨h', hop, rfl⟩ := Option.map_eq_some_iff.mp heq
    change Alike _ h'.fs
    unfold mkdir at hop
    simp only [effect, unanswered]
    simp only at hop
    split at hop
    · rename_i hmk
      cases hop
      rw [hmk]
      exact .refl _
    · rename_i hmk
      rw [hmk]
      exact logChild_alike hop
  | write id offset data =>
    obtain ⟨h', hop, rfl⟩ := Option.map_eq_some_iff.mp heq
    change Alike _ h'.fs
    unfold write at hop
    simp only [effect, unanswered]
    split at hop
    · rename_i happly
      cases hop
      rw [happly]
      exact .refl _
    · rename_i happly
      rw [happly]
      exact logFile_alike hop
  | setattr id size =>
    obtain ⟨h', hop, rfl⟩ := Option.map_eq_some_iff.mp heq
    change Alike _ h'.fs
    cases size with
    | none =>
      rw [(setattr_none hop).1]
      exact .refl fs
    | some newSize =>
      simp only [setattr] at hop
      simp only [effect, unanswered]
      split at hop
      · rename_i happly
        cases hop
        rw [happly]
        exact .refl _
      · rename_i happly
        rw [happly]
        exact logFile_alike hop
  | remove dirid filename =>
    unfold handle remove at heq
    simp only [effect, unanswered, applyRemove]
    cases hrm : fs.vfs.remove g' dirid (fromUtf8Lossy filename) with
    | mk res vfs =>
      simp only [hrm] at heq ⊢
      cases res with
      | error e =>
        cases heq
        exact .refl _
      | ok node => exact logChild_alike heq
  | rename fd fn td tn =>
    unfold handle rename at heq
    simp only at heq
    split at heq
    · unfold applyRename at heq
      simp only [effect]
      split at heq
      · rename_i happly
        cases heq
        split at happly
        · rename_i hren
          cases happly
          rw [hren]
          exact .refl _
        · cases happly
      · rename_i happly
        cases heq
        split at happly
        · cases happly
        · rename_i hren
          cases happly
          rw [hren]
          exact (recordMutation_alike _ now _).trans (recordMutation_alike _ now _)
    · cases heq

/-! ### Every request -/

theorem grows_edits (hg : g.ParsedTrees) (hb : fs.Backed) (hm : g'.Mirrors g) {v' : VfsManager}
    (hv' : v'.WellFormed) (hgrows : VfsManager.Grows g' fs.vfs v') :
    (fs.setVfs v').Backed ∧ Edited g fs (fs.setVfs v') none :=
  quiet hg hb hv' (fun i => (hgrows i).mirror hm.trees) rfl rfl fun _ => id

theorem applyRemove_edits (hg : g.ParsedTrees) (hb : fs.Backed) (hm : g'.Mirrors g) (dirid : Nat)
    (filename : Bytes) :
    (fs.applyRemove g' dirid filename).Backed ∧ Edited g fs (fs.applyRemove g' dirid filename) none := by
  have hv := hb.wellFormed.remove (g := g') dirid (fromUtf8Lossy filename)
  have hgrows : VfsManager.Grows g' fs.vfs (fs.vfs.remove g' dirid (fromUtf8Lossy filename)).2 :=
    VfsManager.apply_grows hb.wellFormed (.remove dirid (fromUtf8Lossy filename)) trivial
  unfold applyRemove
  split
  · rename_i hrm
    rw [hrm] at hv hgrows
    exact grows_edits hg hb hm hv hgrows
  · rename_i hrm
    rw [hrm] at hv hgrows
    refine quiet hg hb hv (fun i => (hgrows i).mirror hm.trees) rfl rfl fun i hi => ?_
    simp only [StagingStore.isDeleted, StagingStore.markDeleted, List.contains_iff_mem] at hi ⊢
    exact List.mem_insert_of_mem hi

theorem refl_edits (hb : fs.Backed) : fs.Backed ∧ Edited g fs fs none := ⟨hb, .refl fun _ _ he => by cases he⟩

theorem read_edits (hg : g.ParsedTrees) (hb : fs.Backed) (hm : g'.Mirrors g) (id offset count : Nat) :
    (fs.read g' id offset count).2.Backed ∧ Edited g fs (fs.read g' id offset count).2 none := by
  have hsize (size : Nat) := grows_edits hg hb hm (hb.wellFormed.updateFileSize id size)
    (VfsManager.updateFileSize_grows fs.vfs id size)
  unfold read
  split
  · exact refl_edits hb
  · split
    · exact refl_edits hb
    · split
      · exact refl_edits hb
      · split
        · exact refl_edits hb
        · split
          · exact refl_edits hb
          · simp only
            split <;> exact hsize _

theorem getattr_edits (hg : g.ParsedTrees) (hb : fs.Backed) (hm : g'.Mirrors g) (id : Nat) :
    (fs.getattr g' id).2.Backed ∧ Edited g fs (fs.getattr g' id).2 none := by
  unfold getattr
  split
  · exact refl_edits hb
  · simp only
    split_ifs
    · split
      · exact grows_edits hg hb hm (hb.wellFormed.updateFileSize id _)
          (VfsManager.updateFileSize_grows fs.vfs id _)
      · exact refl_edits hb
    · exact refl_edits hb

theorem lookup_edits (hg : g.ParsedTrees) (hb : fs.Backed) (hm : g'.Mirrors g) (dirid : Nat)
    (filename : Bytes) :
    (fs.lookup g' dirid filename).2.Backed ∧ Edited g fs (fs.lookup g' dirid filename).2 none := by
  have := grows_edits hg hb hm (hb.wellFormed.lookup dirid (fromUtf8Lossy filename))
    (VfsManager.apply_grows hb.wellFormed (.lookup dirid (fromUtf8Lossy filename)) trivial)
  unfold lookup
  split
  · rename_i h
    rwa [h] at this
  · rename_i h
    rwa [h] at this

theorem readdir_edits (hg : g.ParsedTrees) (hb : fs.Backed) (hm : g'.Mirrors g)
    (dirid startAfter maxEntries : Nat) :
    (fs.readdir g' dirid startAfter maxEntries).2.Backed ∧
      Edited g fs (fs.readdir g' dirid startAfter maxEntries).2 none := by
  have := grows_edits hg hb hm (hb.wellFormed.listDir dirid)
    (VfsManager.apply_grows hb.wellFormed (.listDir dirid) trivial)
  unfold readdir
  split
  · exact refl_edits hb
  · split
    · exact refl_edits hb
    · split
      · rename_i h
        rwa [h] at this
      · rename_i h
        rwa [h] at this

/-- What a request does before it asks for a path. -/
theorem unanswered_edits (hg : g.ParsedTrees) (hb : fs.Backed) {r : FileRequest} {op : NfsOp}
    (hr : fs.Served g r) (hop : r.op = .change op) :
    (fs.unanswered r.engine op).Backed ∧
      Edited g fs (fs.unanswered r.engine op) (fs.edit r) := by
  obtain ⟨hm, hf⟩ := hr
  unfold edit
  rw [hop] at hf ⊢
  cases op with
  | create dirid filename => exact applyCreate_edits hg hb hm dirid filename
  | createExclusive dirid filename => exact applyCreate_edits hg hb hm dirid filename
  | mkdir dirid dirname =>
    exact grows_edits hg hb hm (hb.wellFormed.mkdir dirid _)
      (VfsManager.apply_grows hb.wellFormed (.mkdir dirid _) trivial)
  | write id offset data => exact applyWrite_edits hg hb hm (hf id rfl) offset data
  | setattr id size =>
    cases size with
    | none => exact refl_edits hb
    | some newSize => exact applySetSize_edits hg hb hm (hf id rfl) newSize
  | remove dirid filename => exact applyRemove_edits hg hb hm dirid filename
  | rename fd fn td tn => exact refl_edits hb

theorem effect_edits (hg : g.ParsedTrees) (hb : fs.Backed) {r : FileRequest} {op : NfsOp}
    (hr : fs.Served g r) (hop : r.op = .change op) :
    (fs.effect r.engine op).Backed ∧ Edited g fs (fs.effect r.engine op) (fs.edit r) := by
  cases op with
  | rename fd fn td tn =>
    unfold edit
    rw [hop]
    exact grows_edits hg hb hr.1 (hb.wellFormed.rename fd _ td _)
      (VfsManager.apply_grows hb.wellFormed (.rename fd _ td _) trivial)
  | _ => exact unanswered_edits hg hb hr hop

theorem serve_edits (hg : g.ParsedTrees) (hb : fs.Backed) {r : FileRequest} (hr : fs.Served g r) :
    (fs.serve r).Backed ∧ Edited g fs (fs.serve r) (fs.edit r) := by
  unfold serve
  cases hop : r.op with
  | change op =>
    cases hh : fs.handle r.engine r.now none op with
    | none =>
      simp only [hh]
      exact unanswered_edits hg hb hr hop
    | some h =>
      simp only [hh]
      exact (handle_alike hh).edited (effect_edits hg hb hr hop)
  | read id offset count =>
    unfold edit
    rw [hop]
    exact read_edits hg hb hr.1 id offset count
  | getattr id =>
    unfold edit
    rw [hop]
    exact getattr_edits hg hb hr.1 id
  | lookup dirid filename =>
    unfold edit
    rw [hop]
    exact lookup_edits hg hb hr.1 dirid filename
  | readdir dirid startAfter maxEntries =>
    unfold edit
    rw [hop]
    exact readdir_edits hg hb hr.1 dirid startAfter maxEntries

/-! ## Answers -/

/-- What `read` makes of the bytes of a file, staged or not. -/
theorem slice_eq (b : Bytes) (offset count : Nat) :
    (if b.length ≤ offset then ([], true)
      else ((b.drop offset).take (min count (b.length - offset)),
        decide (b.length ≤ offset + min count (b.length - offset)))) =
      ((Extent.ofList b).slice offset count, (Extent.ofList b).endsBy offset count) := by
  rw [Extent.slice_ofList]
  unfold Extent.endsBy Extent.ofList
  split_ifs with h
  · rw [List.drop_eq_nil_of_le h, List.take_nil, Prod.mk.injEq]
    refine ⟨rfl, (decide_eq_true ?_).symm⟩
    show b.length ≤ offset + count
    omega
  · rw [Prod.mk.injEq]
    constructor
    · rw [← List.length_drop, ← List.take_eq_take_min]
    · rw [decide_eq_decide]
      show _ ↔ b.length ≤ offset + count
      omega

theorem read_array (hb : fs.Backed) (hm : g'.Mirrors g) {i : Nat} (hf : fs.Fetches g' i)
    {a : Extent UInt8} (ha : fs.array g i = some a) (offset count : Nat) :
    (fs.read g' i offset count).1 = .ok (a.slice offset count, a.endsBy offset count) := by
  obtain ⟨b, hcontent, rfl⟩ := Option.map_eq_some_iff.mp ha
  obtain ⟨n, hn, hdir⟩ := content_live hcontent
  rw [content_of hn hdir] at hcontent
  rw [← slice_eq]
  unfold read
  simp only [hn, hdir, Bool.false_eq_true, if_false]
  unfold StagingStore.readAt
  cases hst : fs.staging.isStaged i with
  | true =>
    simp only [hst, if_true] at hcontent
    simp only [if_true, hcontent]
    split_ifs <;> rfl
  | false =>
    obtain ⟨b', hblob⟩ := hf n hn hdir hst
    have hoid := hb.based i n (liveNode_ok hn).1 hdir hst
    simp only [hst, Bool.false_eq_true, if_false, hm.blobs _ _ hblob, Option.some.injEq] at hcontent
    subst hcontent
    simp only [Bool.false_eq_true, if_false, hoid, GitEngine.getBlob, hblob]
    split_ifs <;> rfl

theorem getattr_array (hb : fs.Backed) (hm : g'.Mirrors g) {i : Nat} (hf : fs.Fetches g' i)
    {a : Extent UInt8} (ha : fs.array g i = some a) :
    (fs.getattr g' i).1.map Fattr.size = .ok a.len := by
  obtain ⟨b, hcontent, rfl⟩ := Option.map_eq_some_iff.mp ha
  obtain ⟨n, hn, hdir⟩ := content_live hcontent
  rw [content_of hn hdir] at hcontent
  obtain ⟨hnode, -, -⟩ := liveNode_ok hn
  have hid := hb.wellFormed.id_eq i n hnode
  show _ = Except.ok b.length
  unfold getattr
  simp only [hn, hdir]
  cases hst : fs.staging.isStaged i with
  | true =>
    simp only [hst, if_true] at hcontent
    have hsize : fs.staging.getSize i = some b.length := by
      unfold StagingStore.getSize
      rw [hb.sized i, hcontent]
      rfl
    simp [attrOf, nodeToFattr3, hid, hnode, hsize, Except.map]
  | false =>
    obtain ⟨b', hblob⟩ := hf n hn hdir hst
    have hoid := hb.based i n hnode hdir hst
    simp only [hst, Bool.false_eq_true, if_false, hm.blobs _ _ hblob, Option.some.injEq] at hcontent
    subst hcontent
    have hsize : fs.staging.getSize i = none := by
      unfold StagingStore.getSize
      rw [hb.sized i, hb.unstaged_file hst]
      rfl
    have hlen (len : Nat) (h : g'.blobSize n.oid = some len) : len = b'.length := by
      unfold GitEngine.blobSize at h
      rw [if_neg hoid] at h
      exact hm.cached _ _ _ h (hm.blobs _ _ hblob)
    cases hcached : g'.blobSize n.oid with
    | some len =>
      simp [attrOf, nodeToFattr3, setVfs, VfsManager.updateFileSize, hid, hnode, hsize, hcached, hoid, hlen len hcached,
        Except.map]
    | none =>
      simp [attrOf, nodeToFattr3, setVfs, VfsManager.updateFileSize, hid, hnode, hsize, hcached, hoid,
        GitEngine.getBlob, hblob, Except.map, Except.toOption]

/-- A client reads the file as the array, and sees its length. -/
def ReadsAs (g : GitEngine) (fs : Fs) (i : Nat) (a : Extent UInt8) : Prop :=
  (∀ offset count, (fs.read g i offset count).1 = .ok (a.slice offset count, a.endsBy offset count)) ∧
    (fs.getattr g i).1.map Fattr.size = .ok a.len

theorem readsAs (hb : fs.Backed) (hm : g'.Mirrors g) {i : Nat} (hf : fs.Fetches g' i) (hlive : fs.LiveFile i) :
    ∃ a, fs.array g i = some a ∧ fs.ReadsAs g' i a := by
  obtain ⟨n, hn, hdir⟩ := hlive
  have ha : fs.array g i =
      some (Extent.ofList (fs.staging.opened i (Replay.baseData g' fs.staging n))) := by
    unfold array
    rw [opened_content hb hm hf hn hdir]
    rfl
  exact ⟨_, ha, read_array hb hm hf ha, getattr_array hb hm hf ha⟩

end Requests

/-! ## Over a run -/

/-- Between two commits every file that stays live is an array of bytes: it is read as the array, its edits are
done on the array in their order, and those for other files leave it alone. It starts as the blob of its entry,
or empty when it is created. -/
theorem contents_refine {g : GitEngine} (hg : g.ParsedTrees) {start : Fs} (hbase : start.AtBase)
    (before after : List FileRequest) {fs fs' : Fs}
    (hserved : Run.Meets fileStep (Served g) start (before ++ after))
    (hbefore : Run.run fileStep start before = some fs) (hafter : Run.run fileStep fs after = some fs') :
    (∀ i g', fs.LiveFile i → g'.Mirrors g → fs.Fetches g' i →
      ∃ a, fs.array g i = some a ∧ fs.ReadsAs g' i a) ∧
    (∀ i a, fs.array g i = some a →
      (∀ done rest t, after = done ++ rest → Run.run fileStep fs done = some t → t.LiveFile i) →
      fs'.array g i = some (Extent.replay fileStep edit i fs a after)) ∧
    (∀ r rest t, after = r :: rest → fileStep fs r = some t → ∀ i, ¬ fs.LiveFile i → t.LiveFile i →
      fs.edit r = some (i, .clear) ∧ t.array g i = some .empty ∨ t.Original g i) ∧
    ∀ i, start.LiveFile i → ∃ n, start.vfs.nodes i = some n ∧
      start.array g i = (g.blobs n.oid).map Extent.ofList := by
  have hstep (s : Fs) (r : FileRequest) (s' : Fs) (hb : s.Backed) (hr : s.Served g r)
      (hs : fileStep s r = some s') : s'.Backed ∧ Edited g s s' (s.edit r) := by
    cases hs
    exact serve_edits hg hb hr
  obtain ⟨hmeets, hmeets'⟩ := Run.meets_append hbefore hserved
  have hb : fs.Backed :=
    Run.invariant (I := Backed) (fun s r s' hb hr hs => (hstep s r s' hb hr hs).1) hmeets hbefore hbase.backed
  refine ⟨fun i g' hlive hm hf => readsAs hb hm hf hlive, fun i a ha hlive => ?_, ?_, fun i hlive => ?_⟩
  · refine Extent.replay_run (I := Backed) (fun s => s.LiveFile i) (fun s => s.array g i)
      (fun s r s' hb hr hs => ?_) hmeets' hafter hb ha hlive
    obtain ⟨hb', he⟩ := hstep s r s' hb hr hs
    exact ⟨hb', fun a => he.kept i a⟩
  · rintro r rest t rfl ht
    exact (hstep fs r t hb hmeets'.1 ht).2.new
  · obtain ⟨n, hn, hdir⟩ := hlive
    refine ⟨n, (liveNode_ok hn).1, ?_⟩
    unfold array
    rw [content_of hn hdir, hbase.clean]
    rfl

/-! ### A run -/

def noteOid : Str := List.replicate 40 '1'

/-- A base with one file. -/
def noteBase : GitEngine where
  trees := fun oid => if oid = ['r'] then some ⟨[⟨.regularFile, ['f'], noteOid⟩]⟩ else none
  rootTreeOid := some ['r']
  commitOid := none
  blobs := fun oid => if oid = noteOid then some [0x61, 0x62] else none
  cachedLen := fun _ => none
  blobsDirLen := none
  gcsStorage := false

theorem noteBase_parsedTrees : noteBase.ParsedTrees := by
  intro oid t ht
  refine ⟨rawEntry .regularFile ['f'] (List.replicate 20 0x11), ?_⟩
  unfold GitEngine.getTree noteBase at ht
  simp only at ht
  split_ifs at ht
  cases ht
  decide +kernel

theorem noteBase_mirrors : noteBase.Mirrors noteBase := ⟨rfl, fun _ _ => id, fun _ _ _ h => by cases h⟩

def fetchable (fs : Fs) (r : FileRequest) : Bool :=
  match r.op.needs with
  | none => true
  | some i =>
    match fs.liveNode i with
    | .error _ => true
    | .ok node => node.isDir || (fs.staging.isStaged i || (r.engine.blobs node.oid).isSome)

theorem fetches_of_fetchable (fs : Fs) (r : FileRequest) (h : fs.fetchable r = true) :
    ∀ i, r.op.needs = some i → fs.Fetches r.engine i := by
  intro i hi node hn hdir hst
  unfold fetchable at h
  rw [hi] at h
  simp only [hn, hdir, hst, Bool.false_or] at h
  exact Option.isSome_iff_exists.mp h

/-- The file is looked up, another one is created, and both are written. -/
def noteRun : List FileRequest :=
  [.lookup 1 [0x66], .change (.create 1 [0x67]), .change (.write 2 5 [0x63]), .change (.write 3 0 [0x64])].map
    fun op => ⟨0, noteBase, op⟩

theorem contents_refine_note :
    ∃ fs fs', Run.run fileStep (Fs.new ['r']) (noteRun.take 2) = some fs ∧
      Run.run fileStep fs (noteRun.drop 2) = some fs' ∧
      fs'.array noteBase 2 = some ((Extent.ofList [0x61, 0x62]).write 5 [0x63]) := by
  refine ⟨_, _, rfl, rfl, ?_⟩
  refine (contents_refine noteBase_parsedTrees (.new ['r']) (noteRun.take 2) (noteRun.drop 2) ?_ rfl rfl).2.1 2 _
    rfl fun done rest t hdone ht => ?_
  · rw [List.take_append_drop]
    refine Run.meets_and (Run.meets_of_mem _ fun r hr => ?_)
      (Run.meets_of_check fetches_of_fetchable (by decide +kernel))
    obtain ⟨op, -, rfl⟩ := List.mem_map.mp hr
    exact noteBase_mirrors
  · have hprefix : done ∈ (noteRun.drop 2).inits := (List.mem_inits _ _).mpr ⟨rest, hdone.symm⟩
    have hall : ((noteRun.drop 2).inits.all fun done =>
        ((Run.run fileStep (Fs.new ['r']) (noteRun.take 2)).bind fun fs => Run.run fileStep fs done).all
          fun t => decide (t.LiveFile 2)) = true := by decide +kernel
    have hlive := List.all_eq_true.mp hall done hprefix
    rw [show (Run.run fileStep (Fs.new ['r']) (noteRun.take 2)).bind (fun fs => Run.run fileStep fs done) = some t
      from ht] at hlive
    exact of_decide_eq_true hlive

end Fs

end GitNfs
