import GitNfs.Nfs.Seen
import GitNfs.Vfs.Edits

/-! # What a failed request leaves

An error is never logged. It changes what is seen in two ways: a file whose staging file could not be made
stays in its directory, and a write that was stopped has written part of its data to a staged file.
-/

namespace GitNfs

namespace Fs

open VfsManager (placeAt)

variable {g : GitEngine} {fs fs' : Fs} {fault : Option IoFault}

/-- A path leads to the inode. -/
def Visible (g : GitEngine) (fs : Fs) (i : Nat) : Prop := ∃ path, placeAt g fs.vfs path = some (.node i)

/-- The failed creation of a file is seen: in a directory that can be seen the name is free, or it is that of a file
whose size is only guessed, so that the guess is lost. -/
def LeavesEntry (g : GitEngine) (fs : Fs) (dirid : Nat) (name : Str) : Prop :=
  ∃ v₁, fs.vfs.ensureDirPopulated g dirid = (.ok (), v₁) ∧ fs.Visible g dirid ∧ isDots name = false ∧
    ∀ i n, v₁.liveChild dirid name = some i → v₁.nodes i = some n →
      n.isDir = false ∧ fs.staging.getSize i = none ∧ g.blobSize n.oid = none ∧ n.size ≠ 0

/-- The failed write is seen: what it wrote to the staging file of a file that can be seen changes it. -/
def SpoilsFile (g : GitEngine) (fs : Fs) (id : Nat) (edit : StagingEdit) (fault : Option IoFault) : Prop :=
  fs.Visible g id ∧ fs.LiveFile id ∧ fs.staging.isStaged id = true ∧
    ∃ content, fs.staging.files id = some content ∧ edit.spoil fault content ≠ content

/-- The failures that can be seen. -/
def FailsVisibly (g : GitEngine) (fs : Fs) (fault : Option IoFault) : NfsOp → Prop
  | .create dirid filename | .createExclusive dirid filename => fs.LeavesEntry g dirid (fromUtf8Lossy filename)
  | .write id offset data => fs.SpoilsFile g id (.write offset data) fault
  | _ => False

/-- The directory of a call was there before its children were asked for. -/
theorem populated_dir (hs : fs.Sound) {v₁ : VfsManager} {dirid : Nat}
    (hpop : fs.vfs.ensureDirPopulated g dirid = (.ok (), v₁)) :
    VfsManager.Tracks g fs.vfs v₁ ∧ v₁.WellFormed ∧ ∃ dir, fs.vfs.nodes dirid = some dir := by
  have ht := VfsManager.ensureDirPopulated_tracks (g := g) hs.wellFormed dirid
  obtain ⟨hv₁, -⟩ := hs.wellFormed.ensureDirPopulated_ok hpop
  rw [hpop] at ht
  refine ⟨ht, hv₁, ?_⟩
  rcases VfsManager.ensureDirPopulated_cases g fs.vfs dirid with ⟨ids, hids, -⟩ | ⟨dir, -, hdir, -⟩ | ⟨e, he⟩
  · obtain ⟨-, ⟨n, hn, -⟩, -⟩ := hs.wellFormed.listed _ _ hids
    exact ⟨n, hn⟩
  · exact ⟨dir, hdir⟩
  · simp [hpop] at he

/-! ## A file that cannot be staged -/

section Create

variable {v₁ v' : VfsManager} {dirid : Nat} {name : Str} {mode : TreeEntryMode} {node : VfsNode}

/-- The node of the name is at the end of no path but those through its directory. -/
theorem created_path (hv₁ : v₁.WellFormed) (hc : v₁.Created v' dirid name mode node) {path : List Str}
    (h : placeAt g v₁ path = some (.node node.id)) :
    v₁.liveChild dirid name = some node.id ∧ isDots name = false ∧ ∃ done, placeAt g v₁ done = some (.node dirid) := by
  rcases hc.before with ⟨n, hmapped, -, -⟩ | ⟨-, hnew, -⟩
  · obtain ⟨done, -, hdone, hlive, hdots⟩ := VfsManager.placeAt_mapped hv₁ hmapped h
    exact ⟨hlive, hdots, done, hdone⟩
  · obtain ⟨r, hr, -⟩ := hv₁.root
    obtain ⟨m, hm⟩ := VfsManager.placeFrom_known (v := v₁) (a := .node rootInode) ⟨r, hr⟩ h
    simp [hnew] at hm

/-- Without a staging file the new node is all that changes. -/
theorem created_kept (hv₁ : v₁.WellFormed) (hc : v₁.Created v' dirid name mode node) {i : Nat} (hi : i ≠ node.id) :
    (fs.setVfs v').seen g (.node i) = (fs.setVfs v₁).seen g (.node i) :=
  seen_kept (hc.others i hi) (fun _ hn => hv₁.id_eq _ _ hn) rfl fun _ => rfl

/-- The node is seen as it was if its size was not a guess. -/
theorem revived_seen (hv₁ : v₁.WellFormed) (hc : v₁.Created v' dirid name mode node) {n : VfsNode}
    (hn : v₁.nodes node.id = some n)
    (hsize : n.isDir = true ∨ fs.staging.getSize node.id ≠ none ∨ g.blobSize n.oid ≠ none ∨ n.size = 0) :
    (fs.setVfs v').seen g (.node node.id) = (fs.setVfs v₁).seen g (.node node.id) := by
  rcases hc.before with ⟨m, -, hm, heq⟩ | ⟨-, hnew, -⟩
  · rw [hn, Option.some.injEq] at hm
    subst hm
    show (v'.nodes node.id).map _ = (v₁.nodes node.id).map _
    rw [hc.here, hn, heq]
    have hid : n.id = node.id := hv₁.id_eq _ _ hn
    simp only [Option.map_some, Option.some.injEq]
    unfold seenFile
    split_ifs with hdir
    · rfl
    · have hst (v : VfsManager) : (fs.setVfs v).staging = fs.staging := rfl
      simp only [nodeToFattr3, fileBytes, hst, hid]
      rcases hsize with hd | hsize | hsize | hsize
      · exact absurd hd hdir
      · obtain ⟨size, hsize⟩ := Option.ne_none_iff_exists'.mp hsize
        simp [hsize]
      · obtain ⟨size, hsize⟩ := Option.ne_none_iff_exists'.mp hsize
        cases fs.staging.getSize node.id <;> simp [hsize]
      · rw [hsize]
  · simp [hnew] at hn

theorem createFile_fails (hs : fs.Sound) (hpop : fs.vfs.ensureDirPopulated g dirid = (.ok (), v₁))
    (hc : v₁.Created v' dirid name mode node) :
    Unchanged g fs (fs.setVfs v') ↔ ¬ fs.LeavesEntry g dirid name := by
  obtain ⟨htracks, hv₁, dir, hdir⟩ := populated_dir hs hpop
  obtain ⟨ids, hids⟩ := hc.listed
  have hpopulated := hs.unchanged htracks
  obtain ⟨r, hr, -⟩ := hv₁.root
  have hroot : v₁.Known (.node rootInode) := ⟨r, hr⟩
  have hvisible {path : List Str} (h : placeAt g v₁ path = some (.node dirid)) : fs.Visible g dirid :=
    ⟨path, (placeAt_populated hs htracks hdir).mp h⟩
  constructor
  · rintro hun ⟨v, hpop', ⟨path, hpath⟩, hdots, hguess⟩
    rw [hpop, Prod.mk.injEq] at hpop'
    obtain ⟨-, rfl⟩ := hpop'
    have hpath₁ := (placeAt_populated hs htracks hdir).mpr hpath
    have havoid : Walk.Avoids (VfsManager.childAt g v₁)
        (VfsManager.cutAt fun d' name' => VfsManager.nameCut dirid name d' name' ∧ v₁.liveChild dirid name = none)
        (.node rootInode) path := by
      refine VfsManager.avoids_of_childless ?_ hpath₁
      rintro d' name' ⟨⟨rfl, rfl, hdots'⟩, hnone⟩
      rw [VfsManager.childAt_listed hdots' hids, hnone]
      rfl
    have hpath' : placeAt g v' path = some (.node dirid) :=
      (hc.edits.place (a := .node rootInode) hroot havoid).trans hpath₁
    obtain ⟨ids', hids'⟩ : ∃ ids', v'.dirChildren dirid = some ids' := by
      obtain ⟨n, hn, -⟩ := (hv₁.listed _ _ hids).2.1
      have := hc.edits.lists dirid n hn
      rw [hids, Option.isSome_some] at this
      exact Option.isSome_iff_exists.mp this
    -- what is seen at the name before and after
    have hafter : (fs.setVfs v').seenAt g (path ++ [name]) = (fs.setVfs v').seen g (.node node.id) := by
      show (VfsManager.placeFrom g v' _ _).bind _ = _
      rw [VfsManager.placeFrom, Walk.walk_concat,
        show Walk.walk (VfsManager.childAt g v') (.node rootInode) path = _ from hpath', Option.bind_some,
        VfsManager.childAt_listed hdots hids', hc.child]
      rfl
    have hseen := hpopulated (path ++ [name])
    have hboth := hun (path ++ [name])
    have hbefore : (fs.setVfs v₁).seenAt g (path ++ [name]) =
        ((v₁.liveChild dirid name).map Place.node).bind ((fs.setVfs v₁).seen g) := by
      show (VfsManager.placeFrom g v₁ _ _).bind _ = _
      rw [VfsManager.placeFrom, Walk.walk_concat,
        show Walk.walk (VfsManager.childAt g v₁) (.node rootInode) path = _ from hpath₁, Option.bind_some,
        VfsManager.childAt_listed hdots hids]
    rw [hbefore] at hseen
    rw [hafter] at hboth
    have hhere : (fs.setVfs v').seen g (.node node.id) = some (seenFile (some node.id) node.mode node.isDir
        ((fs.setVfs v').fileBytes g node.id node.oid) ((fs.setVfs v').nodeToFattr3 g node).size) := by
      show (v'.nodes node.id).map _ = _
      rw [hc.here]
      rfl
    rw [hhere] at hboth
    obtain ⟨s, hs₀, hkeeps⟩ := Walk.rel_some_right hboth
    rw [hs₀] at hseen
    obtain ⟨s₁, hs₁, hkeeps₁⟩ := Walk.rel_some_left hseen
    obtain ⟨a, ha, hsa⟩ := Option.bind_eq_some_iff.mp hs₁
    obtain ⟨i, hi, rfl⟩ := Option.map_eq_some_iff.mp ha
    rcases hc.before with ⟨n, hmapped, hn, heq⟩ | ⟨hfree, -⟩
    · have hid : i = node.id := by
        have := (VfsManager.liveChild_eq_some.mp hi).1
        rw [hmapped, Option.some.injEq] at this
        exact this.symm
      subst hid
      obtain ⟨hfile, hstaged, hblob, hsize⟩ := hguess _ n hi hn
      have hidn : n.id = node.id := hv₁.id_eq _ _ hn
      have hst (v : VfsManager) : (fs.setVfs v).staging = fs.staging := rfl
      replace hsa : (v₁.nodes node.id).map _ = some s₁ := hsa
      rw [hn, Option.map_some, Option.some.injEq] at hsa
      have hnodedir : node.isDir = false := by rw [heq]; exact hfile
      have hnodesize : node.size = 0 := by rw [heq]
      have hnodeoid : node.oid = n.oid := by rw [heq]
      have hold : s₁.size = n.size := by
        rw [← hsa]
        simp [seenFile, hfile, nodeToFattr3, hst, hidn, hstaged, hblob]
      have hnew := hkeeps.size
      simp only [seenFile, hnodedir, Bool.false_eq_true, if_false, nodeToFattr3, hst, hstaged, hnodeoid, hblob,
        Option.none_or, Option.getD_none, hnodesize] at hnew
      exact hsize (by rw [← hold, hkeeps₁.size, ← hnew])
    · rw [VfsManager.liveChild_of_unmapped hfree] at hi
      simp at hi
  · intro hnot
    refine hpopulated.trans fun path => ?_
    have hsame : placeAt g v' path = placeAt g v₁ path := by
      refine hc.edits.place (a := .node rootInode) hroot ?_
      rw [Walk.avoids_iff]
      rintro done name' rest a - hdone hcut
      cases a with
      | entry e => exact hcut
      | node d =>
        obtain ⟨⟨rfl, rfl, hdots⟩, hnone⟩ := hcut
        exact hnot ⟨v₁, hpop, hvisible hdone, hdots, fun i n hi => by simp [hnone] at hi⟩
    have hseen : (fs.setVfs v').seenAt g path = (fs.setVfs v₁).seenAt g path := by
      show (placeAt g v' path).bind _ = (placeAt g v₁ path).bind _
      rw [hsame]
      cases hplace : placeAt g v₁ path with
      | none => rfl
      | some a =>
        cases a with
        | entry e => rfl
        | node i =>
          by_cases hi : i = node.id
          · subst hi
            obtain ⟨hlive, hdots, done, hdone⟩ := created_path hv₁ hc hplace
            obtain ⟨n, hn, -⟩ := VfsManager.liveChild_node hlive
            refine revived_seen hv₁ hc hn ?_
            by_contra hguess
            simp only [not_or, ne_eq, not_not, Bool.not_eq_true] at hguess
            refine hnot ⟨v₁, hpop, hvisible hdone, hdots, fun i m hi hm => ?_⟩
            rw [hlive, Option.some.injEq] at hi
            subst hi
            rw [hn, Option.some.injEq] at hm
            exact hm ▸ hguess
          · exact created_kept hv₁ hc hi
    rw [hseen]
    cases (fs.setVfs v₁).seenAt g path with
    | none => exact .none
    | some s => exact .some (.refl s)

end Create

/-! ## A write that is stopped -/

theorem edit_fails (hs : fs.Sound) {id : Nat} (edit : StagingEdit) {e : NfsStat}
    (h : (fs.act g fault (edit.toOp id)).1 = .error e) :
    Unchanged g fs (fs.act g fault (edit.toOp id)).2 ↔ ¬ fs.SpoilsFile g id edit fault := by
  obtain ⟨hnot, e', heq⟩ | ⟨node, hnode, hdir, ⟨e', st, hrun, heq⟩ | ⟨st, size, hrun, heq⟩⟩ :=
    act_edit g fs fault edit id
  · rw [heq]
    refine ⟨?_, fun _ => .refl g fs⟩
    rintro - ⟨-, hlive, -⟩
    exact hnot hlive
  · rw [heq]
    obtain ⟨file, rfl, hfile⟩ := StagingStore.run_error_store hrun
    have hn := (liveNode_ok hnode).1
    set fs' : Fs := { fs with staging := { fs.staging with files := Function.update fs.staging.files id file } }
      with hfs'
    have hbytes (i : Nat) (oid : Str) : fs'.fileBytes g i oid =
        if fs.staging.isStaged i then (if i = id then file else fs.staging.files i) else blobBytes g oid := by
      show (if fs.staging.isStaged i then Function.update fs.staging.files id file i else _) = _
      rw [Function.update_apply]
    constructor
    · rintro hun ⟨⟨path, hpath⟩, -, hst, content, hcontent, hspoil⟩
      have hboth := hun path
      have hbefore : fs.seenAt g path = some (seenFile (some id) node.mode false (some content)
          (fs.nodeToFattr3 g node).size) := by
        show (placeAt g fs.vfs path).bind _ = _
        rw [hpath, Option.bind_some, seen, hn, Option.map_some, hdir, fileBytes, if_pos hst, hcontent]
      have hafter : fs'.seenAt g path = some (seenFile (some id) node.mode false (some (edit.spoil fault content))
          (fs'.nodeToFattr3 g node).size) := by
        show (placeAt g fs.vfs path).bind _ = _
        rw [hpath, Option.bind_some]
        show (fs.vfs.nodes id).map _ = _
        rw [hn, Option.map_some, hdir, hbytes, if_pos hst, if_pos rfl, hfile content hcontent]
      rw [hbefore, hafter] at hboth
      obtain ⟨s, hs', hkeeps⟩ := Walk.rel_some_left hboth
      rw [Option.some.injEq] at hs'
      have := hkeeps.bytes
      rw [← hs'] at this
      simp only [seenFile, Bool.false_eq_true, if_false, Option.some.injEq] at this
      exact hspoil this
    · intro hnot path
      have hsame : fs'.seenAt g path = fs.seenAt g path := by
        show (placeAt g fs.vfs path).bind _ = (placeAt g fs.vfs path).bind _
        cases hplace : placeAt g fs.vfs path with
        | none => rfl
        | some a =>
          cases a with
          | entry e => rfl
          | node i =>
            refine seen_kept rfl (fun _ hn => hs.wellFormed.id_eq _ _ hn) rfl fun hst => ?_
            show Function.update fs.staging.files id file i = _
            rw [Function.update_apply]
            split_ifs with hi
            · subst hi
              obtain ⟨content, hcontent⟩ := hs.backed i hst
              rw [hcontent, hfile content hcontent, Option.some.injEq]
              by_contra hspoil
              exact hnot ⟨⟨path, hplace⟩, ⟨node, hnode, hdir⟩, hst, content, hcontent, hspoil⟩
            · rfl
      rw [hsame]
      cases fs.seenAt g path with
      | none => exact .none
      | some s => exact .some (.refl s)
  · rw [heq] at h
    simp at h

/-! ## Every failure -/

/-- A file is not created where the directory cannot be populated. -/
theorem createFile_error {v v' : VfsManager} {dirid : Nat} {name : Str} {mode : TreeEntryMode} {e : Error}
    (h : v.createFile g dirid name mode = (.error e, v')) : v.ensureDirPopulated g dirid = (.error e, v') := by
  unfold VfsManager.createFile at h
  split at h
  · rename_i heq
    cases h
    exact heq
  · split at h <;> simp at h

theorem mkdir_error {v v' : VfsManager} {dirid : Nat} {name : Str} {e : Error}
    (h : v.mkdir g dirid name = (.error e, v')) : v.ensureDirPopulated g dirid = (.error e, v') := by
  unfold VfsManager.mkdir at h
  split at h
  · rename_i heq
    cases h
    exact heq
  · simp at h

theorem createNode_fails (hs : fs.Sound) {dirid : Nat} {filename : Bytes} {e : NfsStat}
    (h : (fs.act g fault (.create dirid filename)).1 = .error e) :
    Unchanged g fs (fs.act g fault (.create dirid filename)).2 ↔
      ¬ fs.LeavesEntry g dirid (fromUtf8Lossy filename) := by
  simp only [act] at h ⊢
  rcases hmade : fs.vfs.createFile g dirid (fromUtf8Lossy filename) .regularFile with ⟨e' | node, vfs⟩
  · have hpop := createFile_error hmade
    have htracks := VfsManager.ensureDirPopulated_tracks (g := g) hs.wellFormed dirid
    rw [hpop] at htracks
    refine ⟨?_, fun _ => hs.unchanged htracks⟩
    rintro - ⟨v₁, hpop', -⟩
    rw [hpop] at hpop'
    simp at hpop'
  · obtain ⟨v₁, hpop, hc⟩ := VfsManager.createFile_created hs.wellFormed hmade
    rw [hmade] at h
    cases fault with
    | none => simp [StagingStore.createFile] at h
    | some fault => exact createFile_fails hs hpop hc

/-- A request that fails logs nothing, and changes nothing that is seen but for the failures that are visible. -/
theorem failed_unchanged_iff (g : GitEngine) (fs : Fs) (hr : fs.Reached) (now : Nat) (fault : Option IoFault)
    (op : NfsOp) (h : Handled Unit) (heq : fs.handle g now fault op = some h) (e : NfsStat)
    (he : h.answer = .error e) :
    h.logged = none ∧ (Unchanged g fs h.fs ↔ ¬ fs.FailsVisibly g fault op) := by
  have hs := hr.sound
  have ha := handle_answers heq
  refine ⟨ha.error e he, ?_⟩
  have herror : (fs.act g fault op).1 = .error e := by
    rw [← ha.answer, he]
    rfl
  have hsame : Unchanged g fs h.fs ↔ Unchanged g fs (fs.act g fault op).2 := by
    unfold Unchanged
    simp only [ha.alike.seenAt]
  have hquiet {fs' : Fs} (hun : Unchanged g fs fs') : Unchanged g fs fs' ↔ ¬ False := ⟨fun _ => id, fun _ => hun⟩
  rw [hsame]
  cases op with
  | create dirid filename => exact createNode_fails hs herror
  | createExclusive dirid filename => exact createNode_fails hs herror
  | mkdir dirid dirname =>
    simp only [act] at herror ⊢
    rcases hmk : fs.vfs.mkdir g dirid (fromUtf8Lossy dirname) with ⟨e' | node, vfs⟩
    · have hun := hs.populated_unchanged (g := g) dirid
      rw [mkdir_error hmk] at hun
      exact hquiet hun
    · simp [hmk] at herror
  | write id offset data => exact edit_fails hs (.write offset data) herror
  | setattr id size =>
    cases size with
    | none => exact hquiet (.refl g fs)
    | some newSize =>
      rw [show fs.FailsVisibly g fault (.setattr id (some newSize)) ↔ fs.SpoilsFile g id (.truncate newSize) fault from ?_]
      · exact edit_fails hs (.truncate newSize) herror
      · refine ⟨False.elim, ?_⟩
        rintro ⟨-, -, -, content, -, hspoil⟩
        exact hspoil rfl
  | remove dirid filename =>
    simp only [act] at herror ⊢
    obtain ⟨e', hrm, hvfs⟩ | ⟨v', i, n, -, -, -, hrm⟩ :=
      VfsManager.remove_cases g fs.vfs dirid (fromUtf8Lossy filename)
    · rcases hres : fs.vfs.remove g dirid (fromUtf8Lossy filename) with ⟨e'' | node, vfs⟩
      · rw [hres] at hvfs
        simp only at hvfs ⊢
        exact hvfs ▸ hquiet (hs.populated_unchanged dirid)
      · simp [hres] at hrm
    · simp [hrm] at herror
  | rename fd fn td tn =>
    simp only [act, applyRename] at herror ⊢
    have hfrom := hs.populated_unchanged (g := g) fd
    obtain ⟨e', hren, hvfs⟩ | ⟨v₁, v₂, i, n, -, -, -, -, hren⟩ :=
      VfsManager.rename_cases g fs.vfs fd (fromUtf8Lossy fn) td (fromUtf8Lossy tn)
    · rcases hres : fs.vfs.rename g fd (fromUtf8Lossy fn) td (fromUtf8Lossy tn) with ⟨e'' | _, vfs⟩
      · rw [hres] at hvfs
        simp only at hvfs ⊢
        rcases hvfs with hvfs | hvfs
        · exact hvfs ▸ hquiet hfrom
        · exact hvfs ▸ hquiet (hfrom.trans ((hs.populated fd).populated_unchanged td))
      · simp [hres] at hren
    · simp [hren] at herror

/-- The file was looked up, and the size of its staging file cannot be set. -/
theorem failed_unchanged_note :
    ∃ fs h, Reached fs ∧ fs.handle noteBase 0 (some .setLen) (.setattr 2 (some 1)) = some h ∧
      h.answer = .error .io ∧ h.logged = none ∧ Unchanged noteBase fs h.fs := by
  have hr : Reached ((Fs.new ['r']).lookup noteBase 1 [0x66]).2 := .lookup noteBase 1 [0x66] (.new ['r'])
  obtain ⟨hlogged, hun⟩ :=
    failed_unchanged_iff noteBase _ hr 0 (some .setLen) (.setattr 2 (some 1)) _ rfl .io rfl
  exact ⟨_, _, hr, rfl, rfl, hlogged, hun.mpr id⟩

/-- The staging file of a new file cannot be made: the answer is an error, and the file is there. -/
theorem failed_create_seen :
    ∃ h s, Reached (Fs.new ['r']) ∧
      (Fs.new ['r']).handle noteBase 0 (some .create) (.create 1 [0x67]) = some h ∧ h.answer = .error .io ∧
      (Fs.new ['r']).seenAt noteBase [['g']] = none ∧ h.fs.seenAt noteBase [['g']] = some s :=
  ⟨_, _, .new ['r'], rfl, rfl, rfl, rfl⟩

end Fs

end GitNfs
