import GitNfs.Nfs.Failures

/-! # What a change leaves alone

A request that succeeds changes what is seen under the names that it was given and nowhere else, unless it
makes a directory over one with children. Making a file or a directory does not ask what the name was.
-/

namespace GitNfs

namespace Fs

open VfsManager (placeAt placeFrom childAt)

variable {g : GitEngine} {fs fs' : Fs} {fault : Option IoFault}

/-! ## The named paths -/

/-- The path ends with the name, in the directory. -/
def AtName (g : GitEngine) (v : VfsManager) (dirid : Nat) (name : Str) (path : List Str) : Prop :=
  ∃ done, path = done ++ [name] ∧ placeAt g v done = some (.node dirid)

/-- The paths that a request names. The second directory of a rename may get its inode only when the children
of the first are asked for. -/
def Named (g : GitEngine) (fs : Fs) : NfsOp → List Str → Prop
  | .create dirid name, path | .createExclusive dirid name, path | .mkdir dirid name, path
  | .remove dirid name, path => AtName g fs.vfs dirid (fromUtf8Lossy name) path
  | .write id _ _, path | .setattr id (some _), path => placeAt g fs.vfs path = some (.node id)
  | .setattr _ none, _ => False
  | .rename fd fn td tn, path =>
    let v := ((fs.vfs.ensureDirPopulated g fd).2.ensureDirPopulated g td).2
    AtName g v fd (fromUtf8Lossy fn) path ∨ AtName g v td (fromUtf8Lossy tn) path

/-- Removing and renaming concern all that is below the named paths. -/
def Touched (g : GitEngine) (fs : Fs) : NfsOp → List Str → Prop
  | .remove dirid name, path => ∃ named, fs.Named g (.remove dirid name) named ∧ named <+: path
  | .rename fd fn td tn, path => ∃ named, fs.Named g (.rename fd fn td tn) named ∧ named <+: path
  | op, path => fs.Named g op path

/-- Every visible path that is not touched is seen as before. -/
def KeepsOthers (g : GitEngine) (fs fs' : Fs) (op : NfsOp) : Prop :=
  ∀ path s, fs.seenAt g path = some s → ¬ fs.Touched g op path → ∃ s', fs'.seenAt g path = some s' ∧ s.Keeps s'

/-! ## What is there under a name -/

/-- What is seen of a name in a directory. -/
def seenChild (g : GitEngine) (fs : Fs) (dirid : Nat) (name : Str) : Option Seen :=
  (childAt g fs.vfs (.node dirid) name).bind (fs.seen g)

/-- A directory under the name is a directory afterwards, and not a staged file. -/
def SparesDir (g : GitEngine) (fs fs' : Fs) (dirid : Nat) (name : Str) : Prop :=
  ∀ s, fs.seenChild g dirid name = some s → s.isDir = true →
    ∃ s', fs'.seenChild g dirid name = some s' ∧ s'.isDir = true ∧
      ∀ i, s'.inode = some i → fs'.staging.isStaged i = false

/-- A file under the name is a file afterwards, with the same bytes. -/
def SparesFile (g : GitEngine) (fs fs' : Fs) (dirid : Nat) (name : Str) : Prop :=
  ∀ s, fs.seenChild g dirid name = some s → s.isDir = false →
    ∃ s', fs'.seenChild g dirid name = some s' ∧ s'.isDir = false ∧ s'.bytes = s.bytes

/-- What is there already is not lost, but for the bytes of a file that a plain create truncates. -/
def SparesNamed (g : GitEngine) (fs fs' : Fs) : NfsOp → Prop
  | .create dirid name => SparesDir g fs fs' dirid (fromUtf8Lossy name)
  | .createExclusive dirid name | .mkdir dirid name =>
    SparesDir g fs fs' dirid (fromUtf8Lossy name) ∧ SparesFile g fs fs' dirid (fromUtf8Lossy name)
  | _ => True

/-- The name of a new file is not that of a directory, nor, for an exclusive create, of a file with bytes. The name
of a new directory is not that of a file, nor of a directory with children that can be seen. -/
def Harmless (g : GitEngine) (fs : Fs) : NfsOp → Prop
  | .create dirid name => ∀ s, fs.seenChild g dirid (fromUtf8Lossy name) = some s → s.isDir = false
  | .createExclusive dirid name => ∀ s, fs.seenChild g dirid (fromUtf8Lossy name) = some s →
      s.isDir = false ∧ s.bytes = some []
  | .mkdir dirid name =>
    (∀ s, fs.seenChild g dirid (fromUtf8Lossy name) = some s → s.isDir = true) ∧
      (fs.Visible g dirid → ∀ below, placeFrom g fs.vfs (.node dirid) [fromUtf8Lossy name, below] = none)
  | _ => True

/-! ## Paths that are not touched -/

theorem rootKnown {v : VfsManager} (hv : v.WellFormed) : v.Known (.node rootInode) := by
  obtain ⟨n, hn, -⟩ := hv.root
  exact ⟨n, hn⟩

/-- Directories are populated and then edited: what no edit reaches is seen as before. -/
theorem keeps_others {v₁ : VfsManager} (hv₁ : v₁.WellFormed) (hun : Unchanged g fs (fs.setVfs v₁))
    {cut : Nat → Str → Prop} (he : VfsManager.Edits cut v₁ fs'.vfs) {op : NfsOp}
    (hout : ∀ path a, placeAt g v₁ path = some a → ¬ fs.Touched g op path →
      Walk.Avoids (childAt g v₁) (VfsManager.cutAt cut) (.node rootInode) path ∧
        fs'.seen g a = (fs.setVfs v₁).seen g a) : KeepsOthers g fs fs' op := by
  intro path s hseen htouched
  have hpopulated := hun path
  rw [hseen] at hpopulated
  obtain ⟨s₁, hs₁, hkeeps⟩ := Walk.rel_some_left hpopulated
  obtain ⟨a, ha, hsa⟩ := Option.bind_eq_some_iff.mp hs₁
  obtain ⟨havoid, hsame⟩ := hout path a ha htouched
  have hplace : placeAt g fs'.vfs path = some a := (he.place (rootKnown hv₁) havoid).trans ha
  refine ⟨s₁, ?_, hkeeps⟩
  unfold seenAt
  rw [hplace, Option.bind_some, hsame, hsa]

/-- A name in a directory that was there before the directories were populated. -/
theorem atName_populated (hs : fs.Sound) {v₁ : VfsManager} (ht : VfsManager.Tracks g fs.vfs v₁) {dirid : Nat}
    {name : Str} {path : List Str} {dir : VfsNode} (hdir : fs.vfs.nodes dirid = some dir) :
    AtName g v₁ dirid name path ↔ AtName g fs.vfs dirid name path := by
  unfold AtName
  simp only [placeAt_populated hs ht hdir]

/-- A path that is not below a name that is cut takes no edge that is cut. -/
theorem avoids_cut {v : VfsManager} {cut : Nat → Str → Prop} {path : List Str}
    (h : ∀ d name named, cut d name → AtName g v d name named → ¬ named <+: path) :
    Walk.Avoids (childAt g v) (VfsManager.cutAt cut) (.node rootInode) path := by
  rw [Walk.avoids_iff]
  rintro done name rest a rfl hdone hcut
  cases a with
  | entry e => exact hcut
  | node d =>
    refine h d name (done ++ [name]) hcut ⟨done, rfl, hdone⟩ ⟨rest, ?_⟩
    rw [List.append_assoc, List.singleton_append]

/-- A path to a node with a name is a path at that name. -/
theorem atName_of_mapped {v : VfsManager} (hv : v.WellFormed) {dirid i : Nat} {name : Str}
    (hi : v.childMap (dirid, name) = some i) {path : List Str} (h : placeAt g v path = some (.node i)) :
    AtName g v dirid name path := by
  obtain ⟨done, hpath, hdone, -⟩ := VfsManager.placeAt_mapped hv hi h
  exact ⟨done, hpath, hdone⟩

theorem atName_last {v : VfsManager} {dirid : Nat} {name last : Str} {front : List Str}
    (h : AtName g v dirid name (front ++ [last])) : last = name := by
  obtain ⟨done, heq, -⟩ := h
  simpa using (List.append_inj' heq rfl).2

/-! ## Each of the requests -/

section Requests

variable {v₁ v' : VfsManager} {dirid : Nat} {name : Str} {mode : TreeEntryMode} {node : VfsNode}

/-- A place other than one node is seen as before, whatever is staged for that node. -/
theorem seen_other {st : StagingStore} {i : Nat} {a : Place} (hv₁ : v₁.WellFormed)
    (hothers : ∀ j, j ≠ i → v'.nodes j = v₁.nodes j)
    (hst : ∀ j, j ≠ i → st.stagedNodes.lookup j = fs.staging.stagedNodes.lookup j ∧
      st.files j = fs.staging.files j) (ha : a ≠ .node i) :
    seen g { fs with vfs := v', staging := st } a = (fs.setVfs v₁).seen g a := by
  cases a with
  | entry e => rfl
  | node j =>
    have hne : j ≠ i := fun h => ha (h ▸ rfl)
    refine seen_kept ?_ (fun _ hn => hv₁.id_eq _ _ hn) ?_ fun _ => ?_
    · exact hothers j hne
    · exact (hst j hne).1
    · exact (hst j hne).2

theorem stored_other (st : StagingStore) {i j : Nat} (content : Bytes) (h : j ≠ i) :
    (st.stored i content).stagedNodes.lookup j = st.stagedNodes.lookup j ∧
      (st.stored i content).files j = st.files j := by
  rw [StagingStore.stored_lookup, StagingStore.stored_files, if_neg h, if_neg h]
  exact ⟨rfl, rfl⟩

theorem create_keeps_others (hs : fs.Sound) (hpop : fs.vfs.ensureDirPopulated g dirid = (.ok (), v₁))
    (hc : v₁.Created v' dirid name mode node) {op : NfsOp}
    (hop : ∀ path, fs.Touched g op path ↔ AtName g fs.vfs dirid name path) :
    KeepsOthers g fs { fs with vfs := v', staging := fs.staging.stored node.id [] } op := by
  obtain ⟨ht, hv₁, dir, hdir⟩ := populated_dir hs hpop
  obtain ⟨ids, hids⟩ := hc.listed
  apply keeps_others hv₁ (hs.unchanged ht) hc.edits
  intro path a ha htouched
  rw [hop, ← atName_populated hs ht hdir] at htouched
  refine ⟨VfsManager.avoids_of_childless ?_ ha, ?_⟩
  · rintro d' name' ⟨⟨rfl, rfl, hdots⟩, hnone⟩
    rw [VfsManager.childAt_listed hdots hids, hnone]
    rfl
  · apply seen_other hv₁ hc.others (fun j hj => stored_other _ _ hj)
    rintro rfl
    rcases hc.before with ⟨n, hmapped, -⟩ | ⟨-, hnew, -⟩
    · exact htouched (atName_of_mapped hv₁ hmapped ha)
    · obtain ⟨m, hm⟩ := VfsManager.placeFrom_known (rootKnown hv₁) ha
      simp [hnew] at hm

theorem mkdir_keeps_others (hs : fs.Sound) (hpop : fs.vfs.ensureDirPopulated g dirid = (.ok (), v₁))
    (hm : v₁.MadeDir v' dirid name node) {op : NfsOp}
    (hop : ∀ path, fs.Touched g op path ↔ AtName g fs.vfs dirid name path)
    (hbelow : fs.Visible g dirid → ∀ below, placeFrom g fs.vfs (.node dirid) [name, below] = none) :
    KeepsOthers g fs (fs.setVfs v') op := by
  obtain ⟨ht, hv₁, dir, hdir⟩ := populated_dir hs hpop
  apply keeps_others hv₁ (hs.unchanged ht) hm.edits
  intro path a ha htouched
  rw [hop] at htouched
  constructor
  · apply avoids_cut
    rintro d' name' named ⟨rfl, rfl, -⟩ hnamed ⟨rest, rfl⟩
    obtain ⟨done, rfl, hdone⟩ := (atName_populated hs ht hdir).mp hnamed
    -- what is below the name was visible before
    have hbefore := ht.place (root_becomes hs v₁) (done ++ [name'] ++ rest)
    rw [show placeFrom g v₁ _ _ = _ from ha] at hbefore
    obtain ⟨b, hb, -⟩ := Walk.rel_some_right hbefore
    cases rest with
    | nil => exact htouched ⟨done, by simp, hdone⟩
    | cons below rest =>
      have hsplit : done ++ [name'] ++ below :: rest = done ++ ([name', below] ++ rest) := by simp
      rw [hsplit, placeFrom, Walk.walk_append, show Walk.walk _ _ done = _ from hdone, Option.bind_some,
        Walk.walk_append, show Walk.walk _ _ [name', below] = _ from hbelow ⟨done, hdone⟩ below] at hb
      simp at hb
  · apply seen_other hv₁ hm.others (fun _ _ => ⟨rfl, rfl⟩)
    rintro rfl
    obtain ⟨m, hmade⟩ := VfsManager.placeFrom_known (rootKnown hv₁) ha
    simp [hm.new] at hmade

theorem remove_keeps_others (hs : fs.Sound) {filename : Bytes}
    (hpop : fs.vfs.ensureDirPopulated g dirid = (.ok (), v₁))
    (hr : v₁.Removed v' dirid (fromUtf8Lossy filename) node) :
    KeepsOthers g fs { fs with vfs := v', staging := fs.staging.markDeleted node.id } (.remove dirid filename) := by
  obtain ⟨ht, hv₁, dir, hdir⟩ := populated_dir hs hpop
  apply keeps_others hv₁ (hs.unchanged ht) hr.edits
  intro path a ha htouched
  have hout {named : List Str} (h : AtName g v₁ dirid (fromUtf8Lossy filename) named) : ¬ named <+: path :=
    fun hprefix => htouched ⟨named, (atName_populated hs ht hdir).mp h, hprefix⟩
  constructor
  · apply avoids_cut
    rintro d' name' named ⟨rfl, rfl, -⟩ hnamed
    exact hout hnamed
  · apply seen_other hv₁ hr.others (fun _ _ => ⟨rfl, rfl⟩)
    rintro rfl
    exact hout (atName_of_mapped hv₁ hr.mapped ha) (List.prefix_refl path)

theorem rename_keeps_others (hs : fs.Sound) {fd td i : Nat} {fn tn : Bytes} {n : VfsNode}
    (hr : VfsManager.Renamed g ((fs.vfs.ensureDirPopulated g fd).2.ensureDirPopulated g td).2 v'
      (fd, fromUtf8Lossy fn) (td, fromUtf8Lossy tn) i n) :
    KeepsOthers g fs (fs.setVfs v') (.rename fd fn td tn) := by
  have hun := (hs.populated_unchanged (g := g) fd).trans ((hs.populated fd).populated_unchanged td)
  apply keeps_others hr.wellFormed hun hr.edits
  intro path a ha htouched
  constructor
  · apply avoids_cut
    rintro d name named hcut hnamed hprefix
    refine htouched ⟨named, ?_, hprefix⟩
    rcases hcut with heq | heq <;> cases heq
    · exact .inl hnamed
    · exact .inr hnamed
  · cases a with
    | entry e => rfl
    | node j =>
      refine seen_kept ?_ (fun _ hn => hr.wellFormed.id_eq _ _ hn) rfl fun _ => rfl
      show v'.nodes j = _
      have hmoved : j ≠ i := by
        rintro rfl
        exact htouched ⟨path, .inl (atName_of_mapped hr.wellFormed hr.source ha), List.prefix_refl path⟩
      have hkilled : ¬ VfsManager.childMap _ (td, fromUtf8Lossy tn) = some j := fun hj =>
        htouched ⟨path, .inr (atName_of_mapped hr.wellFormed hj ha), List.prefix_refl path⟩
      rw [hr.nodes, if_neg hmoved, if_neg hkilled]
      rfl

theorem stored_keeps_others (hs : fs.Sound) {id size : Nat} {content : Bytes} {op : NfsOp}
    (hop : ∀ path, fs.Touched g op path ↔ placeAt g fs.vfs path = some (.node id)) :
    KeepsOthers g fs { fs with vfs := fs.vfs.updateFileSize id size, staging := fs.staging.stored id content } op := by
  obtain ⟨hedits, hothers⟩ := VfsManager.updateFileSize_edits fs.vfs id size
  apply keeps_others hs.wellFormed (.refl g fs) hedits
  intro path a ha htouched
  rw [hop] at htouched
  refine ⟨avoids_cut fun _ _ _ hcut => hcut.elim, ?_⟩
  apply seen_other hs.wellFormed hothers (fun j hj => stored_other _ _ hj)
  rintro rfl
  exact htouched ha

/-! ## What becomes of the name -/

@[simp] theorem seenFile_isDir (inode : Option Nat) (mode : TreeEntryMode) (isDir : Bool) (bytes : Option Bytes)
    (size : Nat) : (seenFile inode mode isDir bytes size).isDir = isDir := by
  unfold seenFile
  split_ifs with h <;> simp [h]

@[simp] theorem seenFile_inode (inode : Option Nat) (mode : TreeEntryMode) (isDir : Bool) (bytes : Option Bytes)
    (size : Nat) : (seenFile inode mode isDir bytes size).inode = inode := by
  unfold seenFile
  split_ifs <;> rfl

theorem seenChild_dots (h : isDots name = true) : fs.seenChild g dirid name = none := by
  unfold seenChild
  rw [VfsManager.childAt_dots h, Option.bind_none]

theorem seenChild_populated (hs : fs.Sound) (ht : VfsManager.Tracks g fs.vfs v₁) {dir : VfsNode}
    (hdir : fs.vfs.nodes dirid = some dir) (name : Str) :
    Option.Rel Seen.Keeps (fs.seenChild g dirid name) ((fs.setVfs v₁).seenChild g dirid name) :=
  rel_bind_seen (ht.child name (.node hdir)) fun _ _ h => hs.seen_becomes ht h

/-- A live child of a directory is what is seen there. -/
theorem seenChild_live (hv : fs.vfs.WellFormed) (hdots : isDots name = false)
    (hchild : fs.vfs.liveChild dirid name = some node.id) (hnode : fs.vfs.nodes node.id = some node) :
    fs.seenChild g dirid name = some (seenFile (some node.id) node.mode node.isDir
      (fs.fileBytes g node.id node.oid) (fs.nodeToFattr3 g node).size) := by
  unfold seenChild
  rw [VfsManager.childAt_live hv hdots hchild, Option.bind_some, seen, hnode, Option.map_some]

/-- A name that is created again keeps its kind. -/
theorem created_kind (hs : fs.Sound) (hpop : fs.vfs.ensureDirPopulated g dirid = (.ok (), v₁))
    (hc : v₁.Created v' dirid name mode node) {s : Seen} (hseen : fs.seenChild g dirid name = some s) :
    isDots name = false ∧ s.isDir = node.isDir := by
  have hdots : isDots name = false := by
    by_contra h
    rw [seenChild_dots (by simpa using h)] at hseen
    simp at hseen
  refine ⟨hdots, ?_⟩
  obtain ⟨ht, hv₁, dir, hdir⟩ := populated_dir hs hpop
  obtain ⟨ids, hids⟩ := hc.listed
  have hbefore := seenChild_populated hs ht hdir name
  rw [hseen] at hbefore
  obtain ⟨s₁, hs₁, hkeeps⟩ := Walk.rel_some_left hbefore
  unfold seenChild at hs₁
  rw [show (fs.setVfs v₁).vfs = v₁ from rfl, VfsManager.childAt_listed hdots hids] at hs₁
  obtain ⟨a, ha, hsa⟩ := Option.bind_eq_some_iff.mp hs₁
  obtain ⟨i, hi, rfl⟩ := Option.map_eq_some_iff.mp ha
  rcases hc.before with ⟨n, hmapped, hn, heq⟩ | ⟨hfree, -⟩
  · have hid := (VfsManager.liveChild_eq_some.mp hi).1
    rw [hmapped, Option.some.injEq] at hid
    subst hid
    replace hsa : (v₁.nodes node.id).map _ = some s₁ := hsa
    rw [hn, Option.map_some, Option.some.injEq] at hsa
    rw [← hkeeps.isDir, ← hsa, seenFile_isDir, heq]
  · rw [VfsManager.liveChild_of_unmapped hfree] at hi
    simp at hi

/-- What is created is seen as a staged node without bytes. -/
theorem created_seen (g : GitEngine) (fs : Fs) (hv' : v'.WellFormed) (hc : v₁.Created v' dirid name mode node) (hdots : isDots name = false) :
    ∃ s, seenChild g { fs with vfs := v', staging := fs.staging.stored node.id [] } dirid name = some s ∧
      s.inode = some node.id ∧ s.isDir = node.isDir ∧ (node.isDir = false → s.bytes = some []) := by
  refine ⟨_, seenChild_live hv' hdots hc.child hc.here, seenFile_inode _ _ _ _ _, seenFile_isDir _ _ _ _ _, ?_⟩
  intro hfile
  simp [seenFile, hfile, fileBytes, StagingStore.isStaged]

theorem create_spares (hs : fs.Sound) (hpop : fs.vfs.ensureDirPopulated g dirid = (.ok (), v₁))
    (hv' : v'.WellFormed) (hc : v₁.Created v' dirid name mode node) :
    SparesDir g fs { fs with vfs := v', staging := fs.staging.stored node.id [] } dirid name ↔
      ∀ s, fs.seenChild g dirid name = some s → s.isDir = false := by
  constructor
  · intro hspares s hseen
    by_contra hdir
    rw [Bool.not_eq_false] at hdir
    obtain ⟨hdots, -⟩ := created_kind hs hpop hc hseen
    obtain ⟨s', hs', -, hstaged⟩ := hspares s hseen hdir
    obtain ⟨s'', hs'', hinode, -⟩ := created_seen g fs hv' hc hdots
    rw [hs', Option.some.injEq] at hs''
    subst hs''
    have hstored := hstaged _ hinode
    simp [StagingStore.isStaged] at hstored
  · intro hfile s hseen hdir
    rw [hfile s hseen] at hdir
    simp at hdir

theorem createExclusive_spares (hs : fs.Sound) (hpop : fs.vfs.ensureDirPopulated g dirid = (.ok (), v₁))
    (hv' : v'.WellFormed) (hc : v₁.Created v' dirid name mode node) :
    (SparesDir g fs { fs with vfs := v', staging := fs.staging.stored node.id [] } dirid name ∧
        SparesFile g fs { fs with vfs := v', staging := fs.staging.stored node.id [] } dirid name) ↔
      ∀ s, fs.seenChild g dirid name = some s → s.isDir = false ∧ s.bytes = some [] := by
  rw [create_spares hs hpop hv' hc]
  constructor
  · rintro ⟨hfile, hspares⟩ s hseen
    refine ⟨hfile s hseen, ?_⟩
    obtain ⟨hdots, hkind⟩ := created_kind hs hpop hc hseen
    obtain ⟨s', hs', -, hbytes⟩ := hspares s hseen (hfile s hseen)
    obtain ⟨s'', hs'', -, -, hempty⟩ := created_seen g fs hv' hc hdots
    rw [hs', Option.some.injEq] at hs''
    subst hs''
    rw [← hbytes, hempty (hkind ▸ hfile s hseen)]
  · intro hempty
    refine ⟨fun s hseen => (hempty s hseen).1, fun s hseen hfile => ?_⟩
    obtain ⟨hdots, hkind⟩ := created_kind hs hpop hc hseen
    obtain ⟨s', hs', -, hdir, hbytes⟩ := created_seen g fs hv' hc hdots
    refine ⟨s', hs', by rw [hdir, ← hkind, hfile], ?_⟩
    rw [hbytes (hkind ▸ hfile), (hempty s hseen).2]

/-- A new directory is no staged file, whatever it is made over. -/
theorem mkdir_spares (hs : fs.Sound) (hpop : fs.vfs.ensureDirPopulated g dirid = (.ok (), v₁))
    (hv' : v'.WellFormed) (hm : v₁.MadeDir v' dirid name node) :
    (SparesDir g fs (fs.setVfs v') dirid name ∧ SparesFile g fs (fs.setVfs v') dirid name) ↔
      ∀ s, fs.seenChild g dirid name = some s → s.isDir = true := by
  have hafter {s : Seen} (hseen : fs.seenChild g dirid name = some s) : ∃ s',
      (fs.setVfs v').seenChild g dirid name = some s' ∧ s'.inode = some node.id ∧ s'.isDir = true := by
    have hdots : isDots name = false := by
      by_contra h
      rw [seenChild_dots (by simpa using h)] at hseen
      simp at hseen
    have hseen' : (fs.setVfs v').seenChild g dirid name = _ := seenChild_live hv' hdots hm.child hm.here
    refine ⟨_, hseen', seenFile_inode _ _ _ _ _, ?_⟩
    rw [seenFile_isDir, hm.isDir]
  constructor
  · rintro ⟨-, hspares⟩ s hseen
    by_contra hfile
    obtain ⟨s', hs', hdir, -⟩ := hspares s hseen (by simpa using hfile)
    obtain ⟨s'', hs'', -, hdir''⟩ := hafter hseen
    rw [hs', Option.some.injEq] at hs''
    subst hs''
    simp [hdir] at hdir''
  · intro hdirs
    constructor
    · intro s hseen _
      obtain ⟨s', hs', hinode, hdir⟩ := hafter hseen
      refine ⟨s', hs', hdir, fun i hi => ?_⟩
      rw [hinode, Option.some.injEq] at hi
      subst hi
      by_contra hst
      have hpopulated := hs.populated (g := g) dirid
      rw [hpop] at hpopulated
      rw [Bool.not_eq_false] at hst
      obtain ⟨n, hn⟩ := hpopulated.known node.id hst
      exact absurd (hm.new.symm.trans hn) (by simp)
    · intro s hseen hfile
      simp [hdirs s hseen] at hfile

/-- What is below a name is lost when a directory is made over it. -/
theorem mkdir_loses (hs : fs.Sound) (hpop : fs.vfs.ensureDirPopulated g dirid = (.ok (), v₁))
    (hv' : v'.WellFormed) (hm : v₁.MadeDir v' dirid name node) {op : NfsOp}
    (hop : ∀ path, fs.Touched g op path ↔ AtName g fs.vfs dirid name path)
    (hkeeps : KeepsOthers g fs (fs.setVfs v') op) (hvisible : fs.Visible g dirid) (below : Str) :
    placeFrom g fs.vfs (.node dirid) [name, below] = none := by
  obtain ⟨ht, hv₁, dir, hdir⟩ := populated_dir hs hpop
  obtain ⟨done, hdone⟩ := hvisible
  by_contra hthere
  obtain ⟨b, hb⟩ := Option.ne_none_iff_exists'.mp hthere
  have hplace : placeAt g fs.vfs (done ++ [name, below]) = some b := by
    rw [placeAt, placeFrom, Walk.walk_append, show Walk.walk _ _ done = _ from hdone]
    exact hb
  have hseen : ∃ s, fs.seenAt g (done ++ [name, below]) = some s := by
    unfold seenAt
    rw [hplace, Option.bind_some]
    cases b with
    | entry e => exact ⟨_, rfl⟩
    | node i =>
      obtain ⟨n, hn⟩ := VfsManager.placeFrom_known (rootKnown hs.wellFormed) hplace
      exact ⟨_, by rw [seen, hn]; rfl⟩
  obtain ⟨s, hs'⟩ := hseen
  obtain ⟨s', hafter, -⟩ := hkeeps _ s hs' <| by
    rw [hop]
    rintro ⟨done', heq, hdone'⟩
    obtain rfl := VfsManager.placeAt_unique hs.wellFormed hdone hdone'
    simp at heq
  -- the way to the directory does not lead through the name
  have hdone₁ := (placeAt_populated hs ht hdir).mpr hdone
  have hway : placeAt g v' done = some (.node dirid) := by
    refine (hm.edits.place (rootKnown hv₁) (avoids_cut ?_)).trans hdone₁
    rintro d' name' named ⟨rfl, rfl, -⟩ ⟨done', rfl, hdone'⟩ hprefix
    obtain rfl := VfsManager.placeAt_unique hv₁ hdone₁ hdone'
    have hlength := hprefix.length_le
    rw [List.length_append, List.length_singleton] at hlength
    omega
  have hdots : isDots name = false := by
    by_contra h
    rw [placeFrom, Walk.walk, VfsManager.childAt_dots (by simpa using h)] at hb
    simp at hb
  have hempty : childAt g v' (.node node.id) below = none := by
    cases hdots' : isDots below with
    | true => exact VfsManager.childAt_dots hdots'
    | false =>
      rw [VfsManager.childAt_listed hdots' hm.empty.1, VfsManager.liveChild_of_unmapped (hm.empty.2 below)]
      rfl
  unfold seenAt at hafter
  obtain ⟨c, hc, -⟩ := Option.bind_eq_some_iff.mp hafter
  rw [show (fs.setVfs v').vfs = v' from rfl, placeAt, placeFrom, Walk.walk_append,
    show Walk.walk _ _ done = _ from hway, Option.bind_some, Walk.walk,
    VfsManager.childAt_live hv' hdots hm.child, Option.bind_some, Walk.walk, hempty] at hc
  simp at hc

end Requests

/-! ## Every request -/

/-- What is noted of a change is not seen. -/
theorem Alike.frame {done : Fs} (h : done.Alike fs') (op : NfsOp) :
    (KeepsOthers g fs fs' op ∧ SparesNamed g fs fs' op) ↔ KeepsOthers g fs done op ∧ SparesNamed g fs done op := by
  obtain ⟨_, _, _, rfl⟩ := h
  cases op <;> exact Iff.rfl

theorem createNode_frame (hs : fs.Sound) {dirid : Nat} {filename : Bytes}
    (hok : (fs.act g fault (.create dirid filename)).1 = .ok ()) :
    ∃ v₁ v' node, fs.vfs.ensureDirPopulated g dirid = (.ok (), v₁) ∧ v'.WellFormed ∧
      v₁.Created v' dirid (fromUtf8Lossy filename) .regularFile node ∧
      (fs.act g fault (.create dirid filename)).2 =
        { fs with vfs := v', staging := fs.staging.stored node.id [] } := by
  have hv' := hs.wellFormed.createFile (g := g) dirid (fromUtf8Lossy filename) .regularFile
  simp only [act] at hok ⊢
  rcases hmade : fs.vfs.createFile g dirid (fromUtf8Lossy filename) .regularFile with ⟨e | node, v'⟩
  · simp [hmade] at hok
  · obtain ⟨v₁, hpop, hc⟩ := VfsManager.createFile_created hs.wellFormed hmade
    rw [hmade] at hv' hok
    cases fault with
    | some fault => simp [StagingStore.createFile] at hok
    | none => exact ⟨v₁, v', node, hpop, hv', hc, rfl⟩

theorem edit_frame (hs : fs.Sound) (edit : StagingEdit) {id : Nat} {op : NfsOp}
    (hok : (fs.act g fault (edit.toOp id)).1 = .ok ())
    (hop : ∀ path, fs.Touched g op path ↔ placeAt g fs.vfs path = some (.node id)) :
    KeepsOthers g fs (fs.act g fault (edit.toOp id)).2 op := by
  obtain ⟨-, e, heq⟩ | ⟨node, -, -, ⟨e, st, -, heq⟩ | ⟨st, size, hrun, heq⟩⟩ := act_edit g fs fault edit id
  · simp [heq] at hok
  · simp [heq] at hok
  · rw [heq, StagingStore.run_ok_store hrun]
    exact stored_keeps_others hs hop

/-- A request that succeeds leaves the other paths alone, and what is under its name, exactly when it is harmless. -/
theorem touches_named_iff (g : GitEngine) (fs : Fs) (hr : fs.Reached) (now : Nat) (fault : Option IoFault)
    (op : NfsOp) (h : Handled Unit) (heq : fs.handle g now fault op = some h) (hok : h.answer = .ok ()) :
    (KeepsOthers g fs h.fs op ∧ SparesNamed g fs h.fs op) ↔ fs.Harmless g op := by
  have hs := hr.sound
  have ha := handle_answers heq
  have hact : (fs.act g fault op).1 = .ok () := by
    rw [← ha.answer, hok]
    rfl
  rw [ha.alike.frame]
  cases op with
  | create dirid filename =>
    obtain ⟨v₁, v', node, hpop, hv', hc, hfs⟩ := createNode_frame hs hact
    rw [hfs]
    exact (and_iff_right (create_keeps_others hs hpop hc fun _ => Iff.rfl)).trans (create_spares hs hpop hv' hc)
  | createExclusive dirid filename =>
    have hsame : (fs.act g fault (.create dirid filename)).1 = .ok () := hact
    obtain ⟨v₁, v', node, hpop, hv', hc, hfs⟩ := createNode_frame hs hsame
    rw [show fs.act g fault (.createExclusive dirid filename) = fs.act g fault (.create dirid filename) from rfl, hfs]
    exact (and_iff_right (create_keeps_others hs hpop hc fun _ => Iff.rfl)).trans
      (createExclusive_spares hs hpop hv' hc)
  | mkdir dirid dirname =>
    have hv' := hs.wellFormed.mkdir (g := g) dirid (fromUtf8Lossy dirname)
    simp only [act] at hact ⊢
    rcases hmk : fs.vfs.mkdir g dirid (fromUtf8Lossy dirname) with ⟨e | node, v'⟩
    · simp [hmk] at hact
    · obtain ⟨v₁, hpop, hm⟩ := VfsManager.mkdir_made hs.wellFormed hmk
      rw [hmk] at hv'
      have hspares := mkdir_spares hs hpop hv' hm
      constructor
      · rintro ⟨hkeeps, hnamed⟩
        exact ⟨hspares.mp hnamed, mkdir_loses hs hpop hv' hm (fun _ => Iff.rfl) hkeeps⟩
      · rintro ⟨hdirs, hbelow⟩
        exact ⟨mkdir_keeps_others hs hpop hm (fun _ => Iff.rfl) hbelow, hspares.mpr hdirs⟩
  | write id offset data =>
    exact iff_of_true ⟨edit_frame hs (.write offset data) hact fun _ => Iff.rfl, trivial⟩ trivial
  | setattr id size =>
    refine iff_of_true ⟨?_, trivial⟩ trivial
    cases size with
    | none => exact fun _ s hseen _ => ⟨s, hseen, .refl s⟩
    | some newSize => exact edit_frame hs (.truncate newSize) hact fun _ => Iff.rfl
  | remove dirid filename =>
    refine iff_of_true ⟨?_, trivial⟩ trivial
    simp only [act] at hact ⊢
    rcases hrm : fs.vfs.remove g dirid (fromUtf8Lossy filename) with ⟨e | node, v'⟩
    · simp [hrm] at hact
    · obtain ⟨v₁, hpop, hgone⟩ := VfsManager.remove_removed hs.wellFormed hrm
      exact remove_keeps_others hs hpop hgone
  | rename fd fn td tn =>
    refine iff_of_true ⟨?_, trivial⟩ trivial
    simp only [act, applyRename] at hact ⊢
    rcases hren : fs.vfs.rename g fd (fromUtf8Lossy fn) td (fromUtf8Lossy tn) with ⟨e | _, v'⟩
    · simp [hren] at hact
    · obtain ⟨i, n, hmoved⟩ : ∃ i n, VfsManager.Renamed g _ v' (fd, fromUtf8Lossy fn) (td, fromUtf8Lossy tn) i n :=
        VfsManager.rename_renamed hs.wellFormed hren
      exact rename_keeps_others hs hmoved

/-- A new file under a free name. -/
theorem touches_named_note :
    ∃ h, (Fs.new ['r']).handle noteBase 0 none (.createExclusive 1 [0x67]) = some h ∧
      KeepsOthers noteBase (Fs.new ['r']) h.fs (.createExclusive 1 [0x67]) ∧
      SparesNamed noteBase (Fs.new ['r']) h.fs (.createExclusive 1 [0x67]) := by
  have hfree : (Fs.new ['r']).seenChild noteBase 1 (fromUtf8Lossy [0x67]) = none := rfl
  have hiff := touches_named_iff noteBase _ (.new ['r']) 0 none (.createExclusive 1 [0x67]) _ rfl rfl
  refine ⟨_, rfl, hiff.mpr ?_⟩
  intro s hs
  rw [hfree] at hs
  simp at hs

/-- An exclusive create empties the file that is there, and a directory made over another hides its children. -/
theorem mkdir_hides_children :
    (∃ h s, (Fs.new ['r']).handle noteBase 0 none (.createExclusive 1 [0x66]) = some h ∧ h.answer = .ok () ∧
      (Fs.new ['r']).seenChild noteBase 1 ['f'] = some s ∧ s.bytes = some [0x61, 0x62] ∧
      (h.fs.seenChild noteBase 1 ['f']).map (·.bytes) = some (some [])) ∧
    ∃ fs h s, Reached fs ∧ fs.handle noteBase 0 none (.mkdir 1 [0x64]) = some h ∧ h.answer = .ok () ∧
      fs.seenAt noteBase [['d'], ['f']] = some s ∧ ¬ fs.Touched noteBase (.mkdir 1 [0x64]) [['d'], ['f']] ∧
      h.fs.seenAt noteBase [['d'], ['f']] = none := by
  have hmade : Reached _ := .answered noteBase 0 none (.mkdir 1 [0x64]) (.new ['r']) rfl
  have hfile : Reached _ := .answered noteBase 0 none (.create 3 [0x66]) hmade rfl
  refine ⟨⟨_, _, rfl, rfl, rfl, rfl, rfl⟩, _, _, _, hfile, rfl, rfl, rfl, fun htouched => ?_, rfl⟩
  have hname : (['f'] : Str) = fromUtf8Lossy [0x64] :=
    atName_last (show AtName _ _ _ _ ([['d']] ++ [['f']]) from htouched)
  exact absurd hname (by decide)

end Fs

end GitNfs
