import GitNfs.Nfs.Seen
import GitNfs.Vfs.Resized

/-! # What a client is answered

A client walks a path one name at a time and then reads the file it leads to, asks for its attributes, or writes
to it. Two servers whose tables differ in sizes at most answer it alike when they have the same bytes and show
the same sizes.
-/

namespace GitNfs

namespace Fs

variable {g g' : GitEngine} {fs fs' : Fs} {id : Nat} {n : VfsNode}

/-! ## Walking a path -/

/-- One lookup after the other. -/
def resolve (g : GitEngine) : Fs → Nat → List Bytes → Except NfsStat Nat × Fs
  | fs, id, [] => (.ok id, fs)
  | fs, id, name :: names =>
    match fs.lookup g id name with
    | (.error e, fs) => (.error e, fs)
    | (.ok child, fs) => resolve g fs child names

/-- A path leads to a file. `opened` is what the walk leaves of the file system. -/
structure Opens (g : GitEngine) (fs : Fs) (path : List Bytes) (id : Nat) (node : VfsNode) (opened : Fs) :
    Prop where
  found : fs.resolve g rootInode path = (.ok id, opened)
  live : opened.liveNode id = .ok node
  file : node.isDir = false

theorem lookup_staging (g : GitEngine) (fs : Fs) (dirid : Nat) (filename : Bytes) :
    (fs.lookup g dirid filename).2.staging = fs.staging := by
  unfold lookup
  split <;> rfl

theorem resolve_kept (hs : fs.Sound) (id : Nat) (path : List Bytes) :
    (fs.resolve g id path).2.Sound ∧ (fs.resolve g id path).2.staging = fs.staging := by
  induction path generalizing fs id with
  | nil => exact ⟨hs, rfl⟩
  | cons name path ih =>
    have hlook := hs.lookup (g := g) id name
    have hst := lookup_staging g fs id name
    unfold resolve
    split
    · rename_i heq
      rw [heq] at hlook hst
      exact ⟨hlook, hst⟩
    · rename_i child fs₁ heq
      rw [heq] at hlook hst
      obtain ⟨hsound, hstaging⟩ := ih hlook child
      exact ⟨hsound, hstaging.trans hst⟩

/-! ## The answers for a file -/

/-- The bytes that a read gives of a content, and whether they reach its end. -/
def portion (content : Bytes) (offset count : Nat) : Bytes × Bool :=
  if content.length ≤ offset then ([], true)
  else
    ((content.drop offset).take (min count (content.length - offset)),
      content.length ≤ offset + min count (content.length - offset))

/-- The size that the attributes of a file show. -/
def attrSize (g : GitEngine) (fs : Fs) (id : Nat) (node : VfsNode) : Nat :=
  match fs.staging.getSize id with
  | some size => size
  | none =>
    if node.oid = [] then g.blobsDirLen.getD node.size
    else ((g.cachedLen node.oid).or ((g.blobs node.oid).map List.length)).getD node.size

theorem portion_whole (content c : Bytes) :
    portion content 0 c.length = (c, true) ↔ c = content := by
  unfold portion
  constructor
  · intro h
    split_ifs at h with hlen
    · simp only [Prod.mk.injEq, and_true] at h
      rw [← h]
      exact (List.length_eq_zero_iff.mp (by omega)).symm
    · simp only [List.drop_zero, Nat.sub_zero, Nat.zero_add, Prod.mk.injEq, decide_eq_true_eq] at h
      obtain ⟨htake, hlen'⟩ := h
      rw [List.take_of_length_le (by omega)] at htake
      exact htake.symm
  · rintro rfl
    split_ifs with hlen
    · rw [List.length_eq_zero_iff.mp (Nat.le_zero.mp hlen)]
    · simp

theorem readAt_staged {st : StagingStore} {b : Bytes} (hst : st.isStaged id = true) (hfile : st.files id = some b)
    (offset count : Nat) : st.readAt id offset count = some (portion b offset count) := by
  unfold StagingStore.readAt portion
  rw [if_pos hst]
  simp only [hfile]
  split_ifs <;> rfl

/-- A file is read from its staging file, or from its blob. -/
theorem read_file (hs : fs.Sound) (hn : fs.liveNode id = .ok n) (hdir : n.isDir = false) (offset count : Nat) :
    (fs.read g id offset count).1 =
      (fs.fileBytes g id n.oid).elim (.error .io) fun content => .ok (portion content offset count) := by
  unfold read fileBytes blobBytes
  simp only [hn, hdir, Bool.false_eq_true, if_false]
  cases hst : fs.staging.isStaged id with
  | true =>
    obtain ⟨b, hb⟩ := hs.backed id hst
    rw [readAt_staged hst hb]
    simp [hb]
  | false =>
    have hread : fs.staging.readAt id offset count = none := by simp [StagingStore.readAt, hst]
    simp only [hread, Bool.false_eq_true, if_false]
    by_cases hoid : n.oid = []
    · simp [hoid, portion]
    · simp only [hoid, if_false, GitEngine.getBlob]
      cases g.blobs n.oid with
      | none => rfl
      | some b =>
        simp only [Option.elim, portion]
        split_ifs <;> rfl

/-- Only a file is read. -/
theorem read_ok {offset count : Nat} {res : Bytes × Bool} (h : (fs.read g id offset count).1 = .ok res) :
    ∃ node, fs.liveNode id = .ok node ∧ node.isDir = false := by
  unfold read at h
  split at h
  · simp at h
  · rename_i node hn
    refine ⟨node, hn, ?_⟩
    by_contra hdir
    rw [if_pos (by simpa using hdir)] at h
    simp at h

theorem getattr_file (hs : fs.Sound) (hn : fs.liveNode id = .ok n) (hdir : n.isDir = false) :
    (fs.getattr g id).1 = .ok ⟨if n.mode.isSymlink then .lnk else .reg, n.mode.posixMode % 0o1000, 1,
      fs.attrSize g id n, fs.attrSize g id n, id⟩ := by
  obtain ⟨hnode, -, -⟩ := liveNode_ok hn
  have hid := hs.wellFormed.id_eq id n hnode
  -- the node as it stands once its size was brought up to date
  have hattr {f : Fs} {k : Nat} (hst : f.staging = fs.staging) (hnode₁ : f.vfs.nodes id = some { n with size := k })
      (hsize : ((fs.staging.getSize id).or (g.blobSize n.oid)).getD k = fs.attrSize g id n) :
      f.attrOf g n = ⟨if n.mode.isSymlink then .lnk else .reg, n.mode.posixMode % 0o1000, 1,
        fs.attrSize g id n, fs.attrSize g id n, id⟩ := by
    simp only [attrOf, nodeToFattr3, hid, hnode₁, Option.getD_some, hst, hsize, hdir, Bool.false_eq_true, if_false]
  have hsame (hsize : ((fs.staging.getSize id).or (g.blobSize n.oid)).getD n.size = fs.attrSize g id n) :=
    hattr (f := fs) (k := n.size) rfl hnode hsize
  unfold getattr
  simp only [hn, hdir, Bool.not_false, Bool.true_and]
  unfold attrSize at *
  cases hst : fs.staging.getSize id with
  | some size =>
    simp only [hst] at hsame
    have hstaged : fs.staging.isStaged id = true := by
      unfold StagingStore.isStaged
      unfold StagingStore.getSize at hst
      rw [hst]
      rfl
    simp only [hstaged, Bool.not_true, Bool.false_and, Bool.false_eq_true, if_false]
    rw [hsame rfl]
  | none =>
    simp only [hst] at hsame hattr
    have hstaged : fs.staging.isStaged id = false := by
      unfold StagingStore.isStaged
      unfold StagingStore.getSize at hst
      rw [hst]
      rfl
    unfold GitEngine.blobSize at *
    by_cases hoid : n.oid = []
    · simp only [hstaged, hoid, Bool.not_false, ne_eq, not_true_eq_false, decide_false, Bool.and_false,
        Bool.false_eq_true, if_false, if_true] at hsame ⊢
      rw [hsame rfl]
    · simp only [hstaged, hoid, Bool.not_false, ne_eq, not_false_eq_true, decide_true, Bool.and_true,
        if_true, if_false] at hsame hattr ⊢
      have hblob : (g.getBlob n.oid).toOption = g.blobs n.oid := by
        unfold GitEngine.getBlob
        cases g.blobs n.oid <;> rfl
      rw [hblob]
      cases hlen : (g.cachedLen n.oid).or ((g.blobs n.oid).map List.length) with
      | none =>
        have hcached : g.cachedLen n.oid = none := (Option.or_eq_none_iff.mp hlen).1
        simp only [hlen] at hsame ⊢
        rw [hsame (by rw [hcached]; rfl)]
      | some len =>
        simp only [hlen] at hattr ⊢
        rw [hattr (f := fs.setVfs (fs.vfs.updateFileSize id len)) (k := len) rfl]
        · simp [setVfs, VfsManager.updateFileSize, hnode]
        · rw [Option.none_or, Option.getD_some]
          cases hcached : g.cachedLen n.oid with
          | none => rfl
          | some len' =>
            rw [hcached, Option.some_or, Option.some.injEq] at hlen
            exact hlen

/-- A write to a file whose bytes are known, and that no other file was left for in the staging directory. -/
theorem write_file (hs : fs.Sound) (hn : fs.liveNode id = .ok n) (hdir : n.isDir = false) {c : Bytes}
    (hbytes : fs.fileBytes g id n.oid = some c) (hleft : fs.staging.isStaged id = false → fs.staging.files id = none)
    {now offset : Nat} {data : Bytes} {h : Handled Unit} (heq : fs.handle g now none (.write id offset data) = some h) :
    h.answer = .ok () ∧ h.fs.staging.getStagedContent id = .ok (some (writeBytes c offset data)) := by
  have hopened : fs.staging.opened id (Replay.baseData g fs.staging n) = c := by
    have hid := hs.wellFormed.id_eq id n (liveNode_ok hn).1
    unfold StagingStore.opened Replay.baseData
    unfold fileBytes blobBytes at hbytes
    rw [hid]
    cases hst : fs.staging.isStaged id with
    | true =>
      rw [hst, if_pos rfl] at hbytes
      simp [hbytes]
    | false =>
      rw [hst, if_neg Bool.false_ne_true] at hbytes
      rw [hleft hst]
      by_cases hoid : n.oid = []
      · rw [if_pos hoid, Option.some.injEq] at hbytes
        simp [hoid, hbytes]
      · rw [if_neg hoid] at hbytes
        simp [hoid, GitEngine.getBlob, hbytes, Except.toOption]
  have hact : fs.act g none (.write id offset data) = (.ok (), { fs with
      staging := fs.staging.stored id (writeBytes c offset data)
      vfs := fs.vfs.updateFileSize id (writeBytes c offset data).length }) := by
    simp only [act, applyWrite, hn, hdir, Bool.false_eq_true, if_false, StagingStore.writeAt_ok, hopened, Except.map]
  have ha := handle_answers heq
  rw [hact] at ha
  constructor
  · have hanswer := ha.answer
    cases hres : h.answer with
    | error e => simp [hres, Except.map] at hanswer
    | ok u => rfl
  · obtain ⟨_, _, _, hfs⟩ := ha.alike
    rw [hfs]
    simp [StagingStore.getStagedContent, StagingStore.isStaged]

/-! ## The same answers -/

/-- Reads and attributes are answered as before, and a write starts from what can be read. -/
structure SameFile (g g' : GitEngine) (fs fs' : Fs) (id : Nat) : Prop where
  read : ∀ offset count, (fs'.read g' id offset count).1 = (fs.read g id offset count).1
  getattr : (fs'.getattr g' id).1 = (fs.getattr g id).1
  write : ∀ c, (fs.read g id 0 c.length).1 = .ok (c, true) → ∀ now offset data h,
    fs'.handle g' now none (.write id offset data) = some h →
      h.answer = .ok () ∧ h.fs.staging.getStagedContent id = .ok (some (writeBytes c offset data))

/-- Every path that leads somewhere leads to the same inode afterwards, and to the same file. -/
def Invisible (g g' : GitEngine) (fs fs' : Fs) : Prop :=
  ∀ path id fs₁, fs.resolve g rootInode path = (.ok id, fs₁) →
    ∃ fs₁', fs'.resolve g' rootInode path = (.ok id, fs₁') ∧
      ∀ node, fs₁.liveNode id = .ok node → node.isDir = false → SameFile g g' fs₁ fs₁' id

theorem sameFile_of (hs : fs.Sound) (hs' : fs'.Sound) {n' : VfsNode} (hn : fs.liveNode id = .ok n)
    (hn' : fs'.liveNode id = .ok n') (hr : n.Resized g g' n') (hdir : n.isDir = false)
    (hbytes : fs'.fileBytes g' id n'.oid = fs.fileBytes g id n.oid)
    (hsize : fs'.attrSize g' id n' = fs.attrSize g id n)
    (hleft : fs'.staging.isStaged id = false → fs'.staging.files id = none) : SameFile g g' fs fs' id := by
  have hdir' : n'.isDir = false := hr.isDir.trans hdir
  refine ⟨fun offset count => ?_, ?_, fun c hc now offset data h heq => ?_⟩
  · rw [read_file hs' hn' hdir', read_file hs hn hdir, hbytes]
  · rw [getattr_file hs' hn' hdir', getattr_file hs hn hdir, hsize, hr.mode]
  · rw [read_file hs hn hdir] at hc
    cases hcontent : fs.fileBytes g id n.oid with
    | none => simp [hcontent] at hc
    | some content =>
      rw [hcontent, Option.elim_some, Except.ok.injEq, portion_whole] at hc
      subst hc
      exact write_file hs' hn' hdir' (hbytes.trans hcontent) hleft heq

/-! ## After the staging store is cleared -/

/-- The same inodes up to sizes, over another engine, with nothing staged. -/
structure Cleared (g g' : GitEngine) (fs fs' : Fs) : Prop where
  vfs : fs.vfs.Resized g g' fs'.vfs
  staging : fs'.staging = StagingStore.new

theorem Cleared.lookup (hc : Cleared g g' fs fs') (htrees : ∀ oid t, g.getTree oid = some t → g'.getTree oid = some t)
    {dirid : Nat} {filename : Bytes} {fs₁ : Fs} (h : fs.lookup g dirid filename = (.ok id, fs₁)) :
    ∃ fs₁', fs'.lookup g' dirid filename = (.ok id, fs₁') ∧ Cleared g g' fs₁ fs₁' := by
  unfold Fs.lookup at h
  split at h
  · rename_i i vfs hlook
    split_ifs at h
    · simp at h
    simp only [Prod.mk.injEq, Except.ok.injEq] at h
    obtain ⟨rfl, rfl⟩ := h
    obtain ⟨w', hlook', hw⟩ := hc.vfs.lookup htrees hlook
    refine ⟨fs'.setVfs w', ?_, hw, hc.staging⟩
    have hdel : fs'.staging.isDeleted i = false := by rw [hc.staging]; rfl
    simp [Fs.lookup, hlook', hdel]
  · simp at h

theorem Cleared.resolve (hc : Cleared g g' fs fs') (htrees : ∀ oid t, g.getTree oid = some t → g'.getTree oid = some t)
    {d : Nat} {path : List Bytes} {fs₁ : Fs} (h : fs.resolve g d path = (.ok id, fs₁)) :
    ∃ fs₁', fs'.resolve g' d path = (.ok id, fs₁') ∧ Cleared g g' fs₁ fs₁' := by
  induction path generalizing fs fs' d with
  | nil =>
    cases h
    exact ⟨fs', rfl, hc⟩
  | cons name path ih =>
    unfold Fs.resolve at h
    split at h
    · simp at h
    · rename_i child fs₂ hlook
      obtain ⟨fs₂', hlook', hc₂⟩ := hc.lookup htrees hlook
      obtain ⟨fs₁', hres, hc₁⟩ := ih hc₂ h
      exact ⟨fs₁', by simp only [Fs.resolve, hlook', hres], hc₁⟩

theorem Cleared.liveNode (hc : Cleared g g' fs fs') (hn : fs.liveNode id = .ok n) :
    ∃ n', fs'.liveNode id = .ok n' ∧ n.Resized g g' n' := by
  obtain ⟨hnode, hlive, -⟩ := liveNode_ok hn
  obtain ⟨n', hn', hr⟩ := hc.vfs.node hnode
  refine ⟨n', ?_, hr⟩
  have hdel : fs'.staging.isDeleted id = false := by rw [hc.staging]; rfl
  simp [Fs.liveNode, hdel, VfsManager.getNode, hn', hr.isDeleted, hlive]

/-- What was staged and is read as before is the blob that the inode names. -/
theorem Cleared.served (hc : Cleared g g' fs fs') (hs : fs.Sound) (hs' : fs'.Sound) (hn : fs.liveNode id = .ok n)
    (hdir : n.isDir = false) (hsame : SameFile g g' fs fs' id) (hst : fs.staging.isStaged id = true) :
    blobBytes g' n.oid = fs.staging.files id := by
  obtain ⟨b, hb⟩ := hs.backed id hst
  obtain ⟨n', hn', hr⟩ := hc.liveNode hn
  have hread := hsame.read 0 b.length
  have hbefore : fs.fileBytes g id n.oid = some b := by
    unfold fileBytes
    rw [if_pos hst, hb]
  have hafter : fs'.fileBytes g' id n'.oid = blobBytes g' n.oid := by
    unfold fileBytes
    rw [hc.staging, hr.oid]
    rfl
  rw [read_file hs hn hdir, read_file hs' hn' (hr.isDir.trans hdir), hbefore, hafter, Option.elim_some,
    (portion_whole b b).mpr rfl] at hread
  cases hblob : blobBytes g' n.oid with
  | none => simp [hblob] at hread
  | some c =>
    rw [hblob, Option.elim_some, Except.ok.injEq, portion_whole] at hread
    rw [hb, hread]

end Fs

end GitNfs
