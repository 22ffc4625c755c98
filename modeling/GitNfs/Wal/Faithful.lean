import GitNfs.Nfs.Failures
import GitNfs.Nfs.Mirror
import GitNfs.Wal.Replayed

/-! # A replay beside the server that wrote the log

The server acts on inodes, the log names paths. As long as the path that a request is logged under leads back
to what the request changed, the replay of the log shows what the server shows.
-/

namespace GitNfs

open VfsManager

/-- The tables of a replay as a file system. -/
def Replay.fs (r : Replay) : Fs := ⟨r.vfs, r.staging, 0, false⟩

theorem Replay.record_eq (r : Replay) (path : Str) :
    ∃ changedPaths, r.record path = ⟨r.vfs, { r.staging with changedPaths }⟩ := by
  unfold record StagingStore.recordChangedPath
  simp only
  split_ifs
  · exact ⟨_, rfl⟩
  · exact ⟨_, rfl⟩

namespace Fs

/-- Two file systems that show the same: there is one that has asked for what either of them has. -/
def Twins (g : GitEngine) (fs fs' : Fs) : Prop := ∃ R R' u, Same g R fs u ∧ Same g R' fs' u

variable {g : GitEngine} {fs fs' : Fs} {b : Replay}

theorem Twins.foundAt (h : Twins g fs fs') (path : List Str) : fs'.foundAt g path = fs.foundAt g path := by
  obtain ⟨R, R', u, hs, hs'⟩ := h
  rw [← hs.foundAt, ← hs'.foundAt]

theorem Twins.new (rootOid : Str) : Twins g (Fs.new rootOid) (Replay.new rootOid).fs := by
  have hsim := Sim.refl (g := g) (.new rootOid)
  have hroot : ∃ n, (VfsManager.new rootOid).nodes rootInode = some n := by
    obtain ⟨n, hn, -⟩ := (WellFormed.new rootOid).root
    exact ⟨n, hn⟩
  have hstaging : StagingStore.new.Twin (fun i j => i = j ∧ ∃ n, (VfsManager.new rootOid).nodes i = some n)
      StagingStore.new := ⟨fun _ _ _ => rfl, fun _ _ => rfl, fun _ _ => rfl⟩
  exact ⟨_, _, Fs.new rootOid, ⟨hsim, ⟨rfl, hroot⟩, hstaging⟩, ⟨hsim, ⟨rfl, hroot⟩, hstaging⟩⟩

theorem Twins.alike_left (h : Twins g fs fs') {fs₁ : Fs} (halike : fs.Alike fs₁) : Twins g fs₁ fs' := by
  obtain ⟨R, R', u, hs, hs'⟩ := h
  exact ⟨R, R', u, hs.alike_left halike, hs'⟩

theorem Twins.ask_left (h : Twins g fs fs') (d : Nat) :
    Twins g (fs.setVfs (fs.vfs.ensureDirPopulated g d).2) fs' := by
  obtain ⟨R, R', u, hs, hs'⟩ := h
  obtain ⟨R₁, e, hask⟩ := hs.ask_both d
  exact ⟨R₁, R', _, hask, hs'.ask e⟩

/-! ## A request that is refused -/

/-- A request that is refused has asked for directories at most. -/
theorem act_refused {P : Fs → Prop} (hask : ∀ fs d, P fs → P (fs.setVfs (fs.vfs.ensureDirPopulated g d).2))
    {op : NfsOp} {e : NfsStat} (h : (fs.act g none op).1 = .error e) (hP : P fs) : P (fs.act g none op).2 := by
  have hcreate (d : Nat) (filename : Bytes) (h : (fs.act g none (.create d filename)).1 = .error e) :
      P (fs.act g none (.create d filename)).2 := by
    simp only [act] at h ⊢
    rcases hmade : fs.vfs.createFile g d (fromUtf8Lossy filename) .regularFile with ⟨err | node, vfs⟩
    · have := hask fs d hP
      rwa [createFile_error hmade] at this
    · simp [hmade, StagingStore.createFile_ok] at h
  cases op with
  | create d filename => exact hcreate d filename h
  | createExclusive d filename => exact hcreate d filename h
  | mkdir d dirname =>
    simp only [act] at h ⊢
    rcases hmade : fs.vfs.mkdir g d (fromUtf8Lossy dirname) with ⟨err | node, vfs⟩
    · have := hask fs d hP
      rwa [mkdir_error hmade] at this
    · simp [hmade] at h
  | write id offset data =>
    simp only [act, applyWrite] at h ⊢
    rcases hnode : fs.liveNode id with err | node
    · exact hP
    · simp only [hnode, StagingStore.writeAt_ok] at h ⊢
      split_ifs at h ⊢
      · exact hP
      · simp [Except.map] at h
  | setattr id size =>
    cases size with
    | none => exact hP
    | some size =>
      simp only [act, applySetSize] at h ⊢
      rcases hnode : fs.liveNode id with err | node
      · exact hP
      · simp only [hnode, StagingStore.truncate_ok] at h ⊢
        split_ifs at h ⊢
        · exact hP
        · simp [Except.map] at h
  | remove d filename =>
    simp only [act] at h ⊢
    obtain ⟨err, herr, heq⟩ | ⟨v', i, n, -, -, -, heq⟩ := remove_cases g fs.vfs d (fromUtf8Lossy filename)
    · rcases hrm : fs.vfs.remove g d (fromUtf8Lossy filename) with ⟨err' | node, vfs⟩
      · have := hask fs d hP
        rw [← heq, hrm] at this
        exact this
      · simp [hrm] at h
    · simp [heq] at h
  | rename fd fn td tn =>
    simp only [act, applyRename] at h ⊢
    obtain ⟨err, herr, heq⟩ | ⟨v₁, v₂, i, n, -, -, -, -, heq⟩ :=
      rename_cases g fs.vfs fd (fromUtf8Lossy fn) td (fromUtf8Lossy tn)
    · rcases hren : fs.vfs.rename g fd (fromUtf8Lossy fn) td (fromUtf8Lossy tn) with ⟨err' | _, vfs⟩
      · rw [hren] at heq
        simp only at heq ⊢
        rcases heq with rfl | rfl
        · exact hask fs fd hP
        · exact hask _ td (hask fs fd hP)
      · simp [hren] at h
    · simp [heq] at h

theorem Twins.refused (h : Twins g fs fs') {op : NfsOp} {e : NfsStat} (herror : (fs.act g none op).1 = .error e) :
    Twins g (fs.act g none op).2 fs' :=
  act_refused (P := fun fs => Twins g fs fs') (fun _ d h => h.ask_left d) herror h

/-! ## A request that is found again -/

section

variable {R R' : Nat → Nat → Prop} {u : Fs} {d e : Nat} {p : Str}

/-- The path that leads back on the server leads to the twin, and asking along it changes nothing. -/
theorem Same.lead (h : Same g R fs u) {n : VfsNode} (hn : fs.vfs.nodes d = some n)
    (hpath : (fs.vfs.lookupPath g p).1 = .ok d) :
    ∃ e u₁, R d e ∧ u.vfs.lookupPath g p = (.ok e, u₁) ∧ Same g R fs (u.setVfs u₁) := by
  obtain ⟨e, hde⟩ := h.sim.twin hn
  have hlead := h.sim.leads_back h.root hde hpath
  refine ⟨e, _, hde, hlead, h.follow p⟩

/-- Where the second one finds something, the first one finds the twin of it. -/
theorem Same.find (h : Same g R fs u) {u₁ : VfsManager} (hpath : u.vfs.lookupPath g p = (.ok e, u₁)) :
    ∃ R' f v₁, (∀ i j, R i j → R' i j) ∧ R' f e ∧ fs.vfs.lookupPath g p = (.ok f, v₁) ∧
      Same g R' (fs.setVfs v₁) (u.setVfs u₁) := by
  have hboth := h.sim.lookupPath h.root p
  rw [hpath] at hboth
  rcases hv : fs.vfs.lookupPath g p with ⟨res, v₁⟩
  rw [hv] at hboth
  cases hboth with
  | ok hR hsim hfe => exact ⟨_, _, _, hR, hfe, rfl, h.setVfs hR hsim⟩

theorem Agree.ok_right {a : Fs} {r : Except NfsStat Unit × Fs} (h : Agree g R (.ok (), a) r) :
    ∃ R' b, (∀ i j, R i j → R' i j) ∧ r = (.ok (), b) ∧ Same g R' a b := by
  cases h with
  | ok hR h => exact ⟨_, _, hR, rfl, h⟩

theorem Agree.ok_left {b : Fs} {r : Except NfsStat Unit × Fs} (h : Agree g R r (.ok (), b)) :
    ∃ R' a, (∀ i j, R i j → R' i j) ∧ r = (.ok (), a) ∧ Same g R' a b := by
  cases h with
  | ok hR h => exact ⟨_, _, hR, rfl, h⟩

/-- A request at one inode, and an entry that repeats it at the end of a path. -/
theorem Twins.one (h : Twins g fs b.fs) (op : Nat → NfsOp) (payload : WalPayload) {n : VfsNode}
    (hn : fs.vfs.nodes d = some n) (hpath : (fs.vfs.lookupPath g p).1 = .ok d)
    (hop : ∀ {R fs fs' d e}, Same g R fs fs' → R d e → Agree g R (fs.act g none (op d)) (fs'.act g none (op e)))
    (hreplay : ∀ f v₁ done, b.vfs.lookupPath g p = (.ok f, v₁) →
      (b.fs.setVfs v₁).act g none (op f) = (.ok (), done) → ∃ b', b.replayPayload g payload = .ok b' ∧ done.Alike b'.fs)
    (hok : (fs.act g none (op d)).1 = .ok ()) :
    ∃ b', b.replayPayload g payload = .ok b' ∧ Twins g (fs.act g none (op d)).2 b'.fs := by
  obtain ⟨R, R', u, hs, hs'⟩ := h
  obtain ⟨e, u₁, hde, hu, hsu⟩ := hs.lead hn hpath
  obtain ⟨R₁, f, v₁, hR₁, hfe, hv, hbu⟩ := hs'.find hu
  have hlive := hop hsu hde
  rw [show fs.act g none (op d) = (.ok (), (fs.act g none (op d)).2) from Prod.ext hok rfl] at hlive
  obtain ⟨R₂, u₂, -, hu₂, hsame⟩ := hlive.ok_right
  have hlogged := hop hbu hfe
  rw [hu₂] at hlogged
  obtain ⟨R₃, done, -, hdone, hsame'⟩ := hlogged.ok_left
  obtain ⟨b', hb', halike⟩ := hreplay f v₁ done hv hdone
  exact ⟨b', hb', R₂, R₃, u₂, hsame, hsame'.alike_left halike⟩

/-! ### Entry by entry -/

variable {f : Nat} {v₁ : VfsManager} {done : Fs}

theorem replay_create {filename : Bytes} (hname : ValidName (fromUtf8Lossy filename))
    (hv : b.vfs.lookupPath g p = (.ok f, v₁))
    (hdone : (b.fs.setVfs v₁).act g none (.create f filename) = (.ok (), done)) :
    ∃ b', b.replayPayload g
      (.createFile ⟨underPath p (fromUtf8Lossy filename), InodeType.regularFile.toI32, 0o100644⟩) =
      .ok b' ∧ done.Alike b'.fs := by
  obtain ⟨changedPaths, hrecord⟩ := b.record_eq (underPath p (fromUtf8Lossy filename))
  simp only [Replay.replayPayload, Replay.replayCreateFile, hrecord, Replay.createAt,
    ensureParentDirs_of_found hname hv, StagingStore.createFile_ok]
  simp only [act, setVfs, Replay.fs, StagingStore.createFile_ok] at hdone
  rw [show Replay.createMode InodeType.regularFile.toI32 = .regularFile from rfl]
  generalize v₁.createFile g f (fromUtf8Lossy filename) .regularFile = made at hdone ⊢
  rcases made with ⟨err | node, vfs⟩
  · simp at hdone
  · simp only [Prod.mk.injEq, true_and] at hdone
    subst hdone
    exact ⟨_, rfl, _, _, _, rfl⟩

theorem replay_mkdir {dirname : Bytes} (hname : ValidName (fromUtf8Lossy dirname))
    (hv : b.vfs.lookupPath g p = (.ok f, v₁))
    (hdone : (b.fs.setVfs v₁).act g none (.mkdir f dirname) = (.ok (), done)) :
    ∃ b', b.replayPayload g (.mkdir (underPath p (fromUtf8Lossy dirname))) = .ok b' ∧ done.Alike b'.fs := by
  obtain ⟨changedPaths, hrecord⟩ := b.record_eq (underPath p (fromUtf8Lossy dirname))
  simp only [Replay.replayPayload, Replay.replayMkdir, hrecord, ensureParentDirs_of_found hname hv]
  simp only [act, setVfs, Replay.fs] at hdone
  generalize v₁.mkdir g f (fromUtf8Lossy dirname) = made at hdone ⊢
  rcases made with ⟨err | node, vfs⟩
  · simp at hdone
  · simp only [Prod.mk.injEq, true_and] at hdone
    subst hdone
    exact ⟨_, rfl, _, _, _, rfl⟩

theorem liveNode_getNode {n : VfsNode} (h : fs.liveNode d = .ok n) : fs.vfs.getNode d = some n := by
  obtain ⟨hn, hlive, -⟩ := liveNode_ok h
  exact getNode_eq_some.mpr ⟨hn, hlive⟩

theorem replay_write {offset : Nat} {data : Bytes} (hv : b.vfs.lookupPath g p = (.ok f, v₁))
    (hdone : (b.fs.setVfs v₁).act g none (.write f offset data) = (.ok (), done)) :
    ∃ b', b.replayPayload g (.write p offset data) = .ok b' ∧ done.Alike b'.fs := by
  obtain ⟨changedPaths, hrecord⟩ := b.record_eq p
  simp only [act, applyWrite] at hdone
  rcases hnode : (b.fs.setVfs v₁).liveNode f with err | n
  · simp [hnode, Except.map] at hdone
  · have hget : v₁.getNode f = some n := liveNode_getNode hnode
    simp only [hnode, StagingStore.writeAt_ok] at hdone
    simp only [Replay.replayPayload, Replay.replayWrite, hrecord, hv, Replay.writeNode, hget, StagingStore.writeAt_ok]
    split_ifs at hdone
    · simp [Except.map] at hdone
    · simp only [Except.map, Prod.mk.injEq, true_and] at hdone
      subst hdone
      exact ⟨_, rfl, _, _, _, rfl⟩

theorem replay_truncate {size : Nat} (hv : b.vfs.lookupPath g p = (.ok f, v₁))
    (hdone : (b.fs.setVfs v₁).act g none (.setattr f (some size)) = (.ok (), done)) :
    ∃ b', b.replayPayload g (.truncate p size) = .ok b' ∧ done.Alike b'.fs := by
  obtain ⟨changedPaths, hrecord⟩ := b.record_eq p
  simp only [act, applySetSize] at hdone
  rcases hnode : (b.fs.setVfs v₁).liveNode f with err | n
  · simp [hnode, Except.map] at hdone
  · have hget : v₁.getNode f = some n := liveNode_getNode hnode
    simp only [hnode, StagingStore.truncate_ok] at hdone
    simp only [Replay.replayPayload, Replay.replayTruncate, hrecord, hv, hget, StagingStore.truncate_ok]
    split_ifs at hdone
    · simp [Except.map] at hdone
    · simp only [Except.map, Prod.mk.injEq, true_and] at hdone
      subst hdone
      exact ⟨_, rfl, _, _, _, rfl⟩

end

section

variable {R R' : Nat → Nat → Prop} {u : Fs}

/-! ### Two inodes -/

theorem Twins.rename (h : Twins g fs b.fs) {fd td : Nat} {fn tn : Bytes} {p q : Str} {n m : VfsNode}
    (hfn : ValidName (fromUtf8Lossy fn)) (htn : ValidName (fromUtf8Lossy tn)) (hn : fs.vfs.nodes fd = some n)
    (hm : fs.vfs.nodes td = some m) (hp : (fs.vfs.lookupPath g p).1 = .ok fd)
    (hq : (fs.vfs.lookupPath g q).1 = .ok td) (hok : (fs.act g none (.rename fd fn td tn)).1 = .ok ()) :
    ∃ b', b.replayPayload g (.rename (underPath p (fromUtf8Lossy fn)) (underPath q (fromUtf8Lossy tn))) = .ok b' ∧
      Twins g (fs.act g none (.rename fd fn td tn)).2 b'.fs := by
  obtain ⟨R, R', u, hs, hs'⟩ := h
  obtain ⟨e, u₁, hde, hu₁, hs₁⟩ := hs.lead hn hp
  obtain ⟨R₁, f, v₁, -, hfe, hv₁, hs₁'⟩ := hs'.find hu₁
  obtain ⟨e', u₂, hde', hu₂, hs₂⟩ := hs₁.lead hm hq
  obtain ⟨R₂, f', v₂, hR₂, hfe', hv₂, hs₂'⟩ := hs₁'.find hu₂
  have hlive := hs₂.rename hde hde' fn tn
  rw [show fs.act g none (.rename fd fn td tn) = (.ok (), (fs.act g none (.rename fd fn td tn)).2)
    from Prod.ext hok rfl] at hlive
  obtain ⟨R₃, u₃, -, hu₃, hsame⟩ := hlive.ok_right
  have hlogged := hs₂'.rename (hR₂ _ _ hfe) hfe' fn tn
  rw [hu₃] at hlogged
  obtain ⟨R₄, done, -, hdone, hsame'⟩ := hlogged.ok_left
  have hfrom := ensureParentDirs_of_found hfn hv₁
  have hto : v₁.ensureParentDirs g (underPath q (fromUtf8Lossy tn)) = (.ok (f', fromUtf8Lossy tn), v₂) :=
    ensureParentDirs_of_found htn hv₂
  obtain ⟨from', hrecord⟩ := b.record_eq (underPath p (fromUtf8Lossy fn))
  obtain ⟨to', hrecord'⟩ := Replay.record_eq ⟨b.vfs, { b.staging with changedPaths := from' }⟩
    (underPath q (fromUtf8Lossy tn))
  have hvfs : b.fs.vfs = b.vfs := rfl
  rw [hvfs] at hfrom
  refine ⟨⟨(v₂.rename g f (fromUtf8Lossy fn) f' (fromUtf8Lossy tn)).2, { b.staging with changedPaths := to' }⟩, ?_,
    R₃, R₄, u₃, hsame, hsame'.alike_left ?_⟩
  · simp only [Replay.replayPayload, Replay.replayRename, hrecord, hrecord', hfrom, hto]
  · simp only [act, applyRename, setVfs, Replay.fs] at hdone
    generalize v₂.rename g f (fromUtf8Lossy fn) f' (fromUtf8Lossy tn) = r at hdone ⊢
    rcases r with ⟨err | _, vfs⟩
    · simp at hdone
    · simp only [Prod.mk.injEq, true_and] at hdone
      subst hdone
      exact ⟨_, _, _, rfl⟩

theorem remove_live (hv : fs.vfs.WellFormed) {d i : Nat} {name : Str} {ids : List Nat}
    (hids : fs.vfs.dirChildren d = some ids) (hi : fs.vfs.childMap (d, name) = some i) :
    ∃ n, n.id = i ∧ fs.vfs.remove g d name = (.ok n, (fs.vfs.remove g d name).2) := by
  obtain ⟨n, hn, -⟩ := mapped_node hv hi
  refine ⟨{ n with isDeleted := true }, hv.id_eq i n hn, ?_⟩
  unfold VfsManager.remove
  simp only [ensureDirPopulated_listed hids, hi, hn]

/-- A name is removed that leads to a live node, from a directory whose children were asked for. -/
theorem Twins.remove_listed (h : Twins g fs b.fs) {d i : Nat} {filename : Bytes} {p : Str} {ids : List Nat}
    (hname : ValidName (fromUtf8Lossy filename)) (hids : fs.vfs.dirChildren d = some ids)
    (hp : (fs.vfs.lookupPath g p).1 = .ok d) (hi : fs.vfs.liveChild d (fromUtf8Lossy filename) = some i) :
    ∃ b', b.replayPayload g (.remove (underPath p (fromUtf8Lossy filename))) = .ok b' ∧
      Twins g (fs.act g none (.remove d filename)).2 b'.fs := by
  obtain ⟨R, R', u, hs, hs'⟩ := h
  obtain ⟨hmap, -⟩ := liveChild_eq_some.mp hi
  obtain ⟨-, ⟨dir, hdir, -⟩, -⟩ := hs.sim.left.listed d ids hids
  obtain ⟨n, hn, -⟩ := mapped_node hs.sim.left hmap
  obtain ⟨j, hij⟩ := hs.sim.twin hn
  obtain ⟨node, hid, hrm⟩ := remove_live (g := g) hs.sim.left hids hmap
  -- the lookup of the whole path
  obtain ⟨e, u₁, hde, hu₁, hs₁⟩ := hs.lead hdir hp
  obtain ⟨R₁, f, v₁, -, hfe, hv₁, hs₁'⟩ := hs'.find hu₁
  have hfound : fs.vfs.lookup g d (fromUtf8Lossy filename) = (.ok i, fs.vfs) := by
    rw [lookup_eq hs.sim.left hname.2.1 hname.2.2.1, ensureDirPopulated_listed hids]
    simp only [hi]
  have hlook : Both g R (fun R i j => R i j) (fs.vfs.lookup g d (fromUtf8Lossy filename))
      (u₁.lookup g e (fromUtf8Lossy filename)) := hs₁.sim.lookup (.inl hde) (.inl hde)
  have hlook' : Both g R₁ (fun R i j => R i j) (v₁.lookup g f (fromUtf8Lossy filename))
      (u₁.lookup g e (fromUtf8Lossy filename)) := hs₁'.sim.lookup (.inl hfe) (.inl hfe)
  have hasked : Same g R fs ((u.setVfs u₁).setVfs (u₁.lookup g e (fromUtf8Lossy filename)).2) := hs₁.look e _
  rw [hfound] at hlook
  rcases hu₂ : u₁.lookup g e (fromUtf8Lossy filename) with ⟨res, u₂⟩
  rcases hv₂ : v₁.lookup g f (fromUtf8Lossy filename) with ⟨res', v₂⟩
  rw [hu₂] at hlook hlook' hasked
  rw [hv₂] at hlook'
  cases hlook with
  | @ok _ _ l _ _ hR hsim hil =>
    obtain rfl : l = j := hsim.tables.unique.2 hil (hR _ _ hij)
    cases hlook' with
    | ok hR₂ hsim₂ hkj =>
      rename_i R₂ k
      have hs₂' : Same g R₂ (b.fs.setVfs v₂) (u.setVfs u₂) := hs₁'.setVfs hR₂ hsim₂
      -- the directory of the path, once more
      obtain ⟨e', u₃, hde', hu₃, hs₃⟩ := hasked.lead hdir hp
      obtain ⟨R₃, f', v₃, hR₃, hfe', hv₃, hs₃'⟩ := hs₂'.find hu₃
      have hpath : b.vfs.lookupPath g (underPath p (fromUtf8Lossy filename)) = (.ok k, v₂) :=
        (lookupPath_underPath hname hv₁).trans hv₂
      have hparent : v₂.ensureParentDirs g (underPath p (fromUtf8Lossy filename)) =
          (.ok (f', fromUtf8Lossy filename), v₃) := ensureParentDirs_of_found hname hv₃
      have hgone : Both g R VfsNode.Twin (fs.vfs.remove g d (fromUtf8Lossy filename))
          (u₃.remove g e' (fromUtf8Lossy filename)) := hs₃.sim.remove (.inl hde') _
      have hgone' : Both g R₃ VfsNode.Twin (v₃.remove g f' (fromUtf8Lossy filename))
          (u₃.remove g e' (fromUtf8Lossy filename)) := hs₃'.sim.remove (.inl hfe') _
      have hsu := hs₃.staging
      have hsb := hs₃'.staging
      rw [hrm] at hgone
      generalize u₃.remove g e' (fromUtf8Lossy filename) = gone at hgone hgone'
      rcases hv₄ : v₃.remove g f' (fromUtf8Lossy filename) with ⟨res, v₄⟩
      rw [hv₄] at hgone'
      cases hgone with
      | ok hR₄ hsim₄ htwin =>
        rename_i R₄ m u₄
        cases hgone' with
        | ok hR₅ hsim₅ htwin' =>
          rename_i R₅ node'
          have hm : m.id = l := hsim₄.tables.unique.2 (hid ▸ htwin.id) (hR₄ _ _ hij)
          have hk : node'.id = k := hsim₅.tables.unique.1 (hm ▸ htwin'.id) (hR₅ _ _ (hR₃ _ _ hkj))
          obtain ⟨changedPaths, hrecord⟩ := b.record_eq (underPath p (fromUtf8Lossy filename))
          have hdone : fs.act g none (.remove d filename) =
              (.ok (), { fs with vfs := (fs.vfs.remove g d (fromUtf8Lossy filename)).2,
                                 staging := fs.staging.markDeleted i }) := by
            simp only [act]
            rw [hrm]
            simp only [hid]
          refine ⟨⟨v₄, StagingStore.markDeleted { b.staging with changedPaths } k⟩, ?_, R₄, R₅,
            ⟨u₄, u.staging.markDeleted l, 0, false⟩, ?_, ?_⟩
          · simp only [Replay.replayPayload, Replay.replayRemove, hrecord, hpath, hparent, hv₄]
          · rw [hdone]
            exact ⟨hsim₄, hR₄ _ _ hs₃.root,
              (hsu.mono hR₄ hsim₄.tables.unique).markDeleted hsim₄.tables.unique (hR₄ _ _ hij)⟩
          · have hsb := hsb.mono hR₅ hsim₅.tables.unique
            have hheld : StagingStore.Twin R₅ { b.staging with changedPaths } u.staging :=
              ⟨hsb.same, hsb.left, hsb.right⟩
            exact ⟨hsim₅, hR₅ _ _ hs₃'.root, hheld.markDeleted hsim₅.tables.unique (hR₅ _ _ (hR₃ _ _ hkj))⟩

theorem Twins.remove (h : Twins g fs b.fs) {d i : Nat} {filename : Bytes} {p : Str}
    (hname : ValidName (fromUtf8Lossy filename)) {v₁ : VfsManager} (hpop : fs.vfs.ensureDirPopulated g d = (.ok (), v₁))
    (hp : (fs.vfs.lookupPath g p).1 = .ok d) (hi : v₁.liveChild d (fromUtf8Lossy filename) = some i) :
    ∃ b', b.replayPayload g (.remove (underPath p (fromUtf8Lossy filename))) = .ok b' ∧
      Twins g (fs.act g none (.remove d filename)).2 b'.fs := by
  have hv : fs.vfs.WellFormed := by
    obtain ⟨R, R', u, hs, -⟩ := h
    exact hs.sim.left
  obtain ⟨-, ids, hids⟩ := hv.ensureDirPopulated_ok hpop
  have hasked := h.ask_left d
  rw [hpop] at hasked
  obtain ⟨n, hn⟩ : ∃ n, fs.vfs.nodes d = some n := by
    apply Option.ne_none_iff_exists'.mp
    intro hnone
    simp [ensureDirPopulated_missing hv hnone] at hpop
  obtain ⟨root, hroot, -⟩ := hv.root
  have hp₁ : (v₁.lookupPath g p).1 = .ok d := by
    have hself := (Sim.refl (g := g) hv).ensure_right d
    rw [hpop] at hself
    rw [hself.leads_back ⟨rfl, root, hroot⟩ ⟨rfl, n, hn⟩ hp]
  have hsame : (fs.setVfs v₁).act g none (.remove d filename) = fs.act g none (.remove d filename) := by
    simp only [act, setVfs, VfsManager.remove, ensureDirPopulated_listed hids, hpop]
  rw [← hsame]
  exact hasked.remove_listed hname hids hp₁ hi

end

/-! ## What is logged -/

section

variable {now d : Nat} {p : Str}

theorem childPath_kept {v : VfsManager} (hk : KeepsNames v fs.vfs) (hp : v.getPath d = some (.ok p)) {name path : Str}
    (h : fs.childPath d name = some path) : path = underPath p name := by
  obtain ⟨r, hr, rfl⟩ := Option.map_eq_some_iff.mp h
  rw [getPath_kept hk hp hr]
  cases p with
  | nil => rfl
  | cons c cs => rfl

theorem logChild_kept {α : Type} {v : VfsManager} (hk : KeepsNames v fs.vfs) (hp : v.getPath d = some (.ok p))
    {name : Str}
    {payload : Str → WalPayload} {answer : Fs → α} {h : Handled α}
    (heq : fs.logChild now d name payload answer = some h) : h.logged = some (payload (underPath p name)) := by
  obtain ⟨path, hpath, rfl⟩ := Option.map_eq_some_iff.mp heq
  rw [childPath_kept hk hp hpath]

theorem logFile_kept {v : VfsManager} (hk : KeepsNames v fs.vfs) {node : VfsNode}
    (hp : v.getPath node.id = some (.ok p))
    {payload : Str → WalPayload} {h : Handled Fattr} (heq : fs.logFile g now node payload = some h) :
    h.logged = some (payload p) := by
  unfold logFile at heq
  split at heq
  · simp at heq
  · rename_i e he
    have hsame := getPath_kept hk hp he
    simp at hsame
  · rename_i path hpath
    have hsame := getPath_kept hk hp hpath
    simp only [Except.ok.injEq] at hsame
    cases heq
    rw [hsame]

theorem createNode_logs {α : Type} (hv : fs.vfs.WellFormed) (hp : fs.vfs.getPath d = some (.ok p)) {filename : Bytes}
    {answer : VfsNode → Fs → α} {h : Handled α} (heq : fs.createNode g now d filename none answer = some h)
    (hok : (fs.act g none (.create d filename)).1 = .ok ()) :
    h.logged = some (.createFile ⟨underPath p (fromUtf8Lossy filename), InodeType.regularFile.toI32, 0o100644⟩) := by
  have hk := apply_keepsNames (g := g) hv (.createFile d (fromUtf8Lossy filename) .regularFile) trivial
  unfold createNode at heq
  simp only [act, VfsCall.apply] at heq hok hk
  rcases hmade : fs.vfs.createFile g d (fromUtf8Lossy filename) .regularFile with ⟨e | node, vfs⟩
  · simp [hmade] at hok
  · simp only [hmade, StagingStore.createFile_ok] at heq hk
    exact logChild_kept hk hp heq

theorem mkdir_logs (hv : fs.vfs.WellFormed) (hp : fs.vfs.getPath d = some (.ok p)) {dirname : Bytes}
    {h : Handled (Nat × Fattr)} (heq : fs.mkdir g now d dirname = some h)
    (hok : (fs.act g none (.mkdir d dirname)).1 = .ok ()) :
    h.logged = some (.mkdir (underPath p (fromUtf8Lossy dirname))) := by
  have hk := apply_keepsNames (g := g) hv (.mkdir d (fromUtf8Lossy dirname)) trivial
  unfold Fs.mkdir at heq
  simp only [act, VfsCall.apply] at heq hok hk
  rcases hmade : fs.vfs.mkdir g d (fromUtf8Lossy dirname) with ⟨e | node, vfs⟩
  · simp [hmade] at hok
  · simp only [hmade] at heq hk
    exact logChild_kept hk hp heq

theorem remove_logs (hv : fs.vfs.WellFormed) (hp : fs.vfs.getPath d = some (.ok p)) {filename : Bytes}
    {h : Handled Unit} (heq : fs.remove g now d filename = some h)
    (hok : (fs.act g none (.remove d filename)).1 = .ok ()) :
    h.logged = some (.remove (underPath p (fromUtf8Lossy filename))) := by
  have hk := apply_keepsNames (g := g) hv (.remove d (fromUtf8Lossy filename)) trivial
  unfold Fs.remove at heq
  simp only [act, VfsCall.apply] at heq hok hk
  rcases hgone : fs.vfs.remove g d (fromUtf8Lossy filename) with ⟨e | node, vfs⟩
  · simp [hgone] at hok
  · simp only [hgone] at heq hk
    exact logChild_kept hk hp heq

theorem write_logs (hv : fs.vfs.WellFormed) (hp : fs.vfs.getPath d = some (.ok p)) {offset : Nat} {data : Bytes}
    {h : Handled Fattr} (heq : fs.write g now d offset data none = some h)
    (hok : (fs.act g none (.write d offset data)).1 = .ok ()) : h.logged = some (.write p offset data) := by
  unfold Fs.write at heq
  simp only [act, applyWrite] at heq hok
  rcases hnode : fs.liveNode d with e | n
  · simp [hnode, Except.map] at hok
  · have hid := hv.id_eq d n (liveNode_ok hnode).1
    simp only [hnode, StagingStore.writeAt_ok] at heq hok
    split_ifs at heq hok
    · simp [Except.map] at hok
    · exact logFile_kept (updateFileSize_keepsNames _ _ _) (hid ▸ hp) heq

theorem setattr_logs (hv : fs.vfs.WellFormed) (hp : fs.vfs.getPath d = some (.ok p)) {size : Nat}
    {h : Handled Fattr} (heq : fs.setattr g now d (some size) none = some h)
    (hok : (fs.act g none (.setattr d (some size))).1 = .ok ()) : h.logged = some (.truncate p size) := by
  unfold Fs.setattr at heq
  simp only [act, applySetSize] at heq hok
  rcases hnode : fs.liveNode d with e | n
  · simp [hnode, Except.map] at hok
  · have hid := hv.id_eq d n (liveNode_ok hnode).1
    simp only [hnode, StagingStore.truncate_ok] at heq hok
    split_ifs at heq hok
    · simp [Except.map] at hok
    · exact logFile_kept (updateFileSize_keepsNames _ _ _) (hid ▸ hp) heq

theorem rename_logs {td : Nat} {q : Str} (hp : fs.vfs.getPath d = some (.ok p))
    (hq : fs.vfs.getPath td = some (.ok q)) {fn tn : Bytes} {h : Handled Unit}
    (heq : fs.rename g now d fn td tn = some h) (hok : (fs.act g none (.rename d fn td tn)).1 = .ok ()) :
    h.logged = some (.rename (underPath p (fromUtf8Lossy fn)) (underPath q (fromUtf8Lossy tn))) := by
  unfold Fs.rename at heq
  simp only [act] at heq hok
  split at heq
  · rename_i hfrom hto
    rcases happly : fs.applyRename g d (fromUtf8Lossy fn) td (fromUtf8Lossy tn) with ⟨e | _, done⟩
    · simp [happly] at hok
    · simp only [happly, Option.some.injEq] at heq
      subst heq
      rw [childPath_kept (.refl _) hp hfrom, childPath_kept (.refl _) hq hto]
  · simp at heq

end

/-! ## One request -/

end Fs

/-- The names of a request. -/
def NfsOp.names : NfsOp → List Str
  | .create _ filename | .createExclusive _ filename | .remove _ filename => [fromUtf8Lossy filename]
  | .mkdir _ dirname => [fromUtf8Lossy dirname]
  | .write .. | .setattr .. => []
  | .rename _ fromFilename _ toFilename => [fromUtf8Lossy fromFilename, fromUtf8Lossy toFilename]

namespace Fs

/-- If the request can change anything, the path it is logged under leads back to what it changes. What it
removes is live. -/
def FoundAgain (g : GitEngine) (fs : Fs) : NfsOp → Prop
  | .create d _ | .createExclusive d _ | .mkdir d _ =>
    ∀ n, fs.vfs.nodes d = some n → n.isDir = true → LeadsBack g fs.vfs d
  | .write id _ _ | .setattr id (some _) => ∀ n, fs.liveNode id = .ok n → n.isDir = false → LeadsBack g fs.vfs id
  | .setattr _ none => True
  | .remove d filename => ∀ v i, fs.vfs.ensureDirPopulated g d = (.ok (), v) →
      v.childMap (d, fromUtf8Lossy filename) = some i →
      LeadsBack g fs.vfs d ∧ v.liveChild d (fromUtf8Lossy filename) = some i
  | .rename fd fn td _ => ∀ v v' i, fs.vfs.ensureDirPopulated g fd = (.ok (), v) →
      v.ensureDirPopulated g td = (.ok (), v') → v'.childMap (fd, fromUtf8Lossy fn) = some i →
      LeadsBack g fs.vfs fd ∧ LeadsBack g fs.vfs td

/-- What the replay makes of what one request logged. -/
def replayLogged (g : GitEngine) (b : Replay) (logged : Option WalPayload) : Except Error Replay :=
  logged.elim (.ok b) (b.replayPayload g)

theorem LeadsBack.node {v : VfsManager} (hv : v.WellFormed) {d : Nat} {p : Str} (hp : v.getPath d = some (.ok p)) :
    ∃ n, v.nodes d = some n := by
  by_cases hd : d = rootInode
  · obtain ⟨n, hn, -⟩ := hv.root
    exact ⟨n, hd ▸ hn⟩
  · obtain ⟨r, hr, heq⟩ := Option.map_eq_some_iff.mp hp
    unfold getPathLoop at hr
    rw [if_neg hd] at hr
    cases hn : v.nodes d with
    | some n => exact ⟨n, rfl⟩
    | none =>
      split at hr
      · simp at hr
      · simp only [hn, Option.some.injEq] at hr
        subst hr
        simp [Except.map] at heq

theorem Twins.wellFormed (h : Twins g fs fs') : fs.vfs.WellFormed := by
  obtain ⟨R, R', u, hs, -⟩ := h
  exact hs.sim.left

theorem populated_isDir {v v' : VfsManager} (hv : v.WellFormed) {d : Nat}
    (h : v.ensureDirPopulated g d = (.ok (), v')) : ∃ n, v.nodes d = some n ∧ n.isDir = true := by
  obtain ⟨ids, hids, -⟩ | ⟨dir, -, hdir, hisDir, -⟩ | ⟨e, heq⟩ := ensureDirPopulated_cases g v d
  · obtain ⟨-, hdir, -⟩ := hv.listed d ids hids
    exact hdir
  · exact ⟨dir, hdir, hisDir⟩
  · simp [heq] at h

section

variable {now d : Nat} {filename : Bytes}

theorem Twins.create_succeeds {α : Type} {answer : VfsNode → Fs → α} {hd : Handled α} (h : Twins g fs b.fs)
    (hname : ValidName (fromUtf8Lossy filename))
    (hfound : ∀ n, fs.vfs.nodes d = some n → n.isDir = true → LeadsBack g fs.vfs d)
    (heq : fs.createNode g now d filename none answer = some hd)
    (hok : (fs.act g none (.create d filename)).1 = .ok ()) :
    ∃ b', replayLogged g b hd.logged = .ok b' ∧ Twins g (fs.act g none (.create d filename)).2 b'.fs := by
  have hpop : ∃ v', fs.vfs.ensureDirPopulated g d = (.ok (), v') := by
    rcases hpop : fs.vfs.ensureDirPopulated g d with ⟨e | _, v'⟩
    · simp [act, VfsManager.createFile, hpop] at hok
    · exact ⟨v', rfl⟩
  obtain ⟨v', hpop⟩ := hpop
  obtain ⟨n, hn, hisDir⟩ := populated_isDir h.wellFormed hpop
  obtain ⟨p, hp, hback⟩ := hfound n hn hisDir
  rw [createNode_logs h.wellFormed hp heq hok]
  exact h.one (fun d => .create d filename) _ hn hback (fun hs hde => hs.create hde filename)
    (fun _ _ _ hv hdone => replay_create hname hv hdone) hok

theorem Twins.mkdir_succeeds {hd : Handled (Nat × Fattr)} (h : Twins g fs b.fs)
    (hname : ValidName (fromUtf8Lossy filename))
    (hfound : ∀ n, fs.vfs.nodes d = some n → n.isDir = true → LeadsBack g fs.vfs d)
    (heq : fs.mkdir g now d filename = some hd) (hok : (fs.act g none (.mkdir d filename)).1 = .ok ()) :
    ∃ b', replayLogged g b hd.logged = .ok b' ∧ Twins g (fs.act g none (.mkdir d filename)).2 b'.fs := by
  have hpop : ∃ v', fs.vfs.ensureDirPopulated g d = (.ok (), v') := by
    rcases hpop : fs.vfs.ensureDirPopulated g d with ⟨e | _, v'⟩
    · simp [act, VfsManager.mkdir, hpop] at hok
    · exact ⟨v', rfl⟩
  obtain ⟨v', hpop⟩ := hpop
  obtain ⟨n, hn, hisDir⟩ := populated_isDir h.wellFormed hpop
  obtain ⟨p, hp, hback⟩ := hfound n hn hisDir
  rw [mkdir_logs h.wellFormed hp heq hok]
  exact h.one (fun d => .mkdir d filename) _ hn hback (fun hs hde => hs.mkdir hde filename)
    (fun _ _ _ hv hdone => replay_mkdir hname hv hdone) hok

theorem Twins.remove_succeeds {hd : Handled Unit} (h : Twins g fs b.fs) (hname : ValidName (fromUtf8Lossy filename))
    (hfound : fs.FoundAgain g (.remove d filename)) (heq : fs.remove g now d filename = some hd)
    (hok : (fs.act g none (.remove d filename)).1 = .ok ()) :
    ∃ b', replayLogged g b hd.logged = .ok b' ∧ Twins g (fs.act g none (.remove d filename)).2 b'.fs := by
  obtain ⟨e, herr, -⟩ | ⟨v', i, n, hpop, hi, -⟩ := remove_cases g fs.vfs d (fromUtf8Lossy filename)
  · simp only [act] at hok
    rcases hrm : fs.vfs.remove g d (fromUtf8Lossy filename) with ⟨err | node, vfs⟩
    · simp [hrm] at hok
    · simp [hrm] at herr
  · obtain ⟨⟨p, hp, hback⟩, hlive⟩ := hfound v' i hpop hi
    rw [remove_logs h.wellFormed hp heq hok]
    exact h.remove hname hpop hback hlive

theorem Twins.rename_succeeds {td : Nat} {fn tn : Bytes} {hd : Handled Unit} (h : Twins g fs b.fs)
    (hfn : ValidName (fromUtf8Lossy fn)) (htn : ValidName (fromUtf8Lossy tn))
    (hfound : fs.FoundAgain g (.rename d fn td tn)) (heq : fs.rename g now d fn td tn = some hd)
    (hok : (fs.act g none (.rename d fn td tn)).1 = .ok ()) :
    ∃ b', replayLogged g b hd.logged = .ok b' ∧ Twins g (fs.act g none (.rename d fn td tn)).2 b'.fs := by
  obtain ⟨e, herr, -⟩ | ⟨v₁, v₂, i, n, hpop₁, hpop₂, hi, -⟩ :=
    rename_cases g fs.vfs d (fromUtf8Lossy fn) td (fromUtf8Lossy tn)
  · simp only [act, applyRename] at hok
    rcases hmv : fs.vfs.rename g d (fromUtf8Lossy fn) td (fromUtf8Lossy tn) with ⟨err | node, vfs⟩
    · simp [hmv] at hok
    · simp [hmv] at herr
  · obtain ⟨⟨p, hp, hback⟩, q, hq, hback'⟩ := hfound v₁ v₂ i hpop₁ hpop₂ hi
    obtain ⟨n, hn⟩ := LeadsBack.node h.wellFormed hp
    obtain ⟨m, hm⟩ := LeadsBack.node h.wellFormed hq
    rw [rename_logs hp hq heq hok]
    exact h.rename hfn htn hn hm hback hback' hok

theorem Twins.write_succeeds {offset : Nat} {data : Bytes} {hd : Handled Fattr} (h : Twins g fs b.fs)
    (hfound : fs.FoundAgain g (.write d offset data)) (heq : fs.write g now d offset data none = some hd)
    (hok : (fs.act g none (.write d offset data)).1 = .ok ()) :
    ∃ b', replayLogged g b hd.logged = .ok b' ∧ Twins g (fs.act g none (.write d offset data)).2 b'.fs := by
  obtain ⟨n, hlive, hfile⟩ : ∃ n, fs.liveNode d = .ok n ∧ n.isDir = false := by
    simp only [act, applyWrite] at hok
    rcases hnode : fs.liveNode d with e | n
    · simp [hnode, Except.map] at hok
    · cases hisDir : n.isDir with
      | true => simp [hnode, hisDir, Except.map] at hok
      | false => exact ⟨n, rfl, hisDir⟩
  obtain ⟨p, hp, hback⟩ := hfound n hlive hfile
  rw [write_logs h.wellFormed hp heq hok]
  exact h.one (fun d => .write d offset data) _ (liveNode_ok hlive).1 hback (fun hs hij => hs.write hij offset data)
    (fun _ _ _ hv hdone => replay_write hv hdone) hok

theorem Twins.setattr_succeeds {size : Nat} {hd : Handled Fattr} (h : Twins g fs b.fs)
    (hfound : fs.FoundAgain g (.setattr d (some size))) (heq : fs.setattr g now d (some size) none = some hd)
    (hok : (fs.act g none (.setattr d (some size))).1 = .ok ()) :
    ∃ b', replayLogged g b hd.logged = .ok b' ∧ Twins g (fs.act g none (.setattr d (some size))).2 b'.fs := by
  obtain ⟨n, hlive, hfile⟩ : ∃ n, fs.liveNode d = .ok n ∧ n.isDir = false := by
    simp only [act, applySetSize] at hok
    rcases hnode : fs.liveNode d with e | n
    · simp [hnode, Except.map] at hok
    · cases hisDir : n.isDir with
      | true => simp [hnode, hisDir, Except.map] at hok
      | false => exact ⟨n, rfl, hisDir⟩
  obtain ⟨p, hp, hback⟩ := hfound n hlive hfile
  rw [setattr_logs h.wellFormed hp heq hok]
  exact h.one (fun d => .setattr d (some size)) _ (liveNode_ok hlive).1 hback (fun hs hij => hs.setSize hij size)
    (fun _ _ _ hv hdone => replay_truncate hv hdone) hok

end

/-- What a request leaves, the replay of what it logs leaves as well. -/
theorem Twins.handled (h : Twins g fs b.fs) {now : Nat} {op : NfsOp} {hd : Handled Unit}
    (hnames : ∀ name ∈ op.names, ValidName name) (hfound : fs.FoundAgain g op)
    (heq : fs.handle g now none op = some hd) :
    ∃ b', replayLogged g b hd.logged = .ok b' ∧ Twins g hd.fs b'.fs := by
  have ha := handle_answers heq
  cases hok : (fs.act g none op).1 with
  | error e =>
    have hquiet : hd.logged = none := by
      have hanswer := ha.answer
      rw [hok] at hanswer
      cases hres : hd.answer with
      | error e' => exact ha.error e' hres
      | ok a => simp [hres, Except.map] at hanswer
    rw [hquiet]
    exact ⟨b, rfl, (h.refused hok).alike_left ha.alike⟩
  | ok _ =>
    suffices hdone : ∃ b', replayLogged g b hd.logged = .ok b' ∧ Twins g (fs.act g none op).2 b'.fs by
      obtain ⟨b', hb', htwins⟩ := hdone
      exact ⟨b', hb', htwins.alike_left ha.alike⟩
    cases op with
    | create d filename =>
      obtain ⟨h', hop, rfl⟩ := Option.map_eq_some_iff.mp heq
      exact (h.create_succeeds (hnames _ List.mem_cons_self) hfound hop hok :)
    | createExclusive d filename =>
      obtain ⟨h', hop, rfl⟩ := Option.map_eq_some_iff.mp heq
      exact (h.create_succeeds (hnames _ List.mem_cons_self) hfound hop hok :)
    | mkdir d dirname =>
      obtain ⟨h', hop, rfl⟩ := Option.map_eq_some_iff.mp heq
      exact h.mkdir_succeeds (hnames _ List.mem_cons_self) hfound hop hok
    | write id offset data =>
      obtain ⟨h', hop, rfl⟩ := Option.map_eq_some_iff.mp heq
      exact h.write_succeeds hfound hop hok
    | setattr id size =>
      obtain ⟨h', hop, rfl⟩ := Option.map_eq_some_iff.mp heq
      cases size with
      | none =>
        obtain ⟨-, hquiet⟩ := setattr_none hop
        have hquiet' : (h'.map fun _ => ()).logged = none := hquiet
        rw [hquiet']
        exact ⟨b, rfl, h⟩
      | some size => exact h.setattr_succeeds hfound hop hok
    | remove d filename => exact h.remove_succeeds (hnames _ List.mem_cons_self) hfound heq hok
    | rename fd fn td tn =>
      exact h.rename_succeeds (hnames _ List.mem_cons_self) (hnames _ (List.mem_cons_of_mem _ List.mem_cons_self))
        hfound heq hok

/-! ## A run -/

/-- Requests one after the other, with what they hand to the log. `none` is a request that is never answered. -/
def serveAll (g : GitEngine) : Fs → List (Nat × NfsOp) → Option (Fs × List WalPayload)
  | fs, [] => some (fs, [])
  | fs, (now, op) :: ops =>
    (fs.handle g now none op).bind fun h =>
      (serveAll g h.fs ops).map fun done => (done.1, h.logged.toList ++ done.2)

/-- Every request of a run is found again in the state that it comes to. -/
def AllFound (g : GitEngine) : Fs → List (Nat × NfsOp) → Prop
  | _, [] => True
  | fs, (now, op) :: ops => fs.FoundAgain g op ∧ ∀ h, fs.handle g now none op = some h → AllFound g h.fs ops

theorem Twins.run (h : Twins g fs b.fs) {ops : List (Nat × NfsOp)} {fs' : Fs} {log : List WalPayload}
    (hnames : ∀ op ∈ ops, ∀ name ∈ op.2.names, ValidName name) (hfound : fs.AllFound g ops)
    (hrun : fs.serveAll g ops = some (fs', log)) {entries : List WalEntry}
    (hentries : entries.map (·.payload) = log.map some) :
    ∃ r, replayWalEntries g entries b = .ok r ∧ Twins g fs' r.fs := by
  induction ops generalizing fs b log entries with
  | nil =>
    simp only [serveAll, Option.some.injEq, Prod.mk.injEq] at hrun
    obtain ⟨rfl, rfl⟩ := hrun
    obtain rfl : entries = [] := by simpa using hentries
    exact ⟨b, rfl, h⟩
  | cons op ops ih =>
    obtain ⟨now, op⟩ := op
    obtain ⟨hd, heq, hrest⟩ := Option.bind_eq_some_iff.mp hrun
    obtain ⟨⟨done, rest⟩, hrun', hlog⟩ := Option.map_eq_some_iff.mp hrest
    simp only [Prod.mk.injEq] at hlog
    obtain ⟨rfl, rfl⟩ := hlog
    obtain ⟨b', hb', htwins⟩ := h.handled (hnames (now, op) List.mem_cons_self) hfound.1 heq
    have hafter {entries : List WalEntry} (hentries : entries.map (·.payload) = rest.map some) :
        ∃ r, replayWalEntries g entries b' = .ok r ∧ Twins g done r.fs :=
      ih htwins (fun op hop => hnames op (List.mem_cons_of_mem _ hop)) (hfound.2 hd heq) hrun' hentries
    cases hlogged : hd.logged with
    | none =>
      rw [hlogged] at hb' hentries
      cases hb'
      exact hafter hentries
    | some payload =>
      rw [hlogged] at hb' hentries
      cases entries with
      | nil => simp at hentries
      | cons entry entries =>
        simp only [Option.toList_some, List.singleton_append, List.map_cons, List.cons.injEq] at hentries
        obtain ⟨r, hr, hend⟩ := hafter hentries.2
        refine ⟨r, ?_, hend⟩
        rw [replayWalEntries]
        simp only [hentries.1]
        rw [show b.replayPayload g payload = .ok b' from hb']
        exact hr

/-- The replay of a log shows what the server shows that wrote it. -/
theorem replay_faithful (g : GitEngine) (rootOid : Str) (ops : List (Nat × NfsOp)) (fs : Fs) (log : List WalPayload)
    (entries : List WalEntry) (hnames : ∀ op ∈ ops, ∀ name ∈ op.2.names, ValidName name)
    (hfound : (Fs.new rootOid).AllFound g ops) (hrun : (Fs.new rootOid).serveAll g ops = some (fs, log))
    (hentries : entries.map (·.payload) = log.map some) :
    ∃ r, replayWalEntries g entries (.new rootOid) = .ok r ∧ ∀ path, r.fs.foundAt g path = fs.foundAt g path := by
  obtain ⟨r, hr, htwins⟩ := (Twins.new rootOid).run hnames hfound hrun hentries
  exact ⟨r, hr, htwins.foundAt⟩

/-- A file is written, its directory renamed, and the file written again; the file of the base is cut and removed. -/
def movedRun : List (Nat × NfsOp) :=
  [(0, .mkdir 1 [0x64]), (0, .createExclusive 3 [0x67]), (0, .write 4 0 [1, 2]), (0, .rename 1 [0x64] 1 [0x65]),
    (0, .write 4 2 [3]), (0, .setattr 2 (some 1)), (0, .remove 1 [0x66])]

theorem replay_faithful_moved :
    ∃ fs log, (Fs.new ['r']).serveAll noteBase movedRun = some (fs, log) ∧ log.length = 7 ∧
      fs.foundAt noteBase [['e'], ['g']] = some (⟨.regularFile, false, some [1, 2, 3]⟩, []) ∧
      ∀ entries : List WalEntry, entries.map (·.payload) = log.map some →
        ∃ r, replayWalEntries noteBase entries (.new ['r']) = .ok r ∧
          ∀ path, r.fs.foundAt noteBase path = fs.foundAt noteBase path := by
  refine ⟨_, _, rfl, rfl, rfl, fun entries hentries => ?_⟩
  refine replay_faithful noteBase ['r'] movedRun _ _ entries (by decide) ?_ rfl hentries
  refine ⟨fun _ _ _ => ⟨[], rfl, rfl⟩, fun _ h => Option.some.inj h ▸ ?_⟩
  refine ⟨fun _ _ _ => ⟨['d'], rfl, rfl⟩, fun _ h => Option.some.inj h ▸ ?_⟩
  refine ⟨fun _ _ _ => ⟨['d', '/', 'g'], rfl, rfl⟩, fun _ h => Option.some.inj h ▸ ?_⟩
  refine ⟨fun _ _ _ _ _ _ => ⟨⟨[], rfl, rfl⟩, [], rfl, rfl⟩, fun _ h => Option.some.inj h ▸ ?_⟩
  refine ⟨fun _ _ _ => ⟨['e', '/', 'g'], rfl, rfl⟩, fun _ h => Option.some.inj h ▸ ?_⟩
  refine ⟨fun _ _ _ => ⟨['f'], rfl, rfl⟩, fun _ h => Option.some.inj h ▸ ?_⟩
  refine ⟨fun v i hpop hi => ⟨⟨[], rfl, rfl⟩, ?_⟩, fun _ _ => trivial⟩
  cases hpop
  exact hi ▸ rfl

end Fs

end GitNfs
