import GitNfs.Vfs.WayBack
import GitNfs.Wal.Shown

/-! # Every replay can be committed

What a commit needs of the tables and of the staging store holds after every replay.
-/

namespace GitNfs

open VfsManager

/-- What is removed is removed by its name in a directory. -/
def WalPayload.RemovesChild : WalPayload → Prop
  | .remove path => ∃ name, (components path).getLast? = some name ∧ isDots name = false
  | _ => True

variable {g : GitEngine} {v w u v' : VfsManager} {staging staging' : StagingStore}

/-! ## What is removed is gone -/

theorem Gone.update {lim : Limits} {i : Nat} (hv : v.WellFormed) (h : Gone v i) (hupdate : Update lim g v v') :
    Gone v' i := by
  obtain ⟨⟨n, hn, hdel⟩, hfree⟩ := h
  have hold := hv.fresh i n hn
  rcases hupdate.change hv with hchange | ⟨j, size, rfl⟩
  · cases hchange with
    | @populate d dir hd hdir hisDir =>
      refine ⟨⟨n, populate_nodes_old hv hd hn, hdel⟩, fun k hk => ?_⟩
      rcases populate_childMap (hv.unmapped hd) g dir.oid k with ⟨hmap, -⟩ | ⟨-, j, e, -, -, hmap⟩
      · exact hfree k (hmap ▸ hk)
      · rw [hmap, Option.some.injEq] at hk
        omega
    | @revive k j m _ _ hj hm hmap hnodes =>
      have hne : i ≠ j := fun hi => hfree k (hi ▸ hj)
      exact ⟨⟨n, by rw [hnodes, if_neg hne, hn], hdel⟩, fun k => hmap ▸ hfree k⟩
    | @add m _ hid hlive hfile hdir hname hfree' hmap hnodes =>
      have hne : i ≠ m.id := by omega
      refine ⟨⟨n, by rw [hnodes, if_neg hne, hn], hdel⟩, fun k hk => ?_⟩
      rw [hmap] at hk
      split_ifs at hk
      · exact hne (Option.some.inj hk).symm
      · exact hfree k hk
    | @remove k j _ hj hmap hnodes =>
      have hne : i ≠ j := fun hi => hfree k (hi ▸ hj)
      refine ⟨⟨n, by rw [hnodes, if_neg hne, hn], hdel⟩, fun k' hk' => ?_⟩
      rw [hmap] at hk'
      split_ifs at hk'
      exact hfree k' hk'
    | @move src dst j m _ hj hm hdir hname hmove hmap hnodes =>
      have hne : i ≠ j := fun hi => hfree src (hi ▸ hj)
      refine ⟨⟨n, by rw [hnodes, if_neg hne, if_neg (hfree dst), hn], hdel⟩, fun k hk => ?_⟩
      rw [hmap] at hk
      split_ifs at hk
      · exact hne (Option.some.inj hk).symm
      · exact hfree k hk
  · refine ⟨?_, hfree⟩
    unfold updateFileSize
    rw [modifyNode_nodes]
    split_ifs with hi
    · exact ⟨{ n with size := size }, by rw [← hi, hn, Option.map_some], hdel⟩
    · exact ⟨n, hn, hdel⟩

theorem Gone.updates {lim : Limits} {i : Nat} (h : Gone v i) (hupdates : Updates lim g v v') : Gone v' i :=
  hupdates.keeps (I := fun v => Gone v i) (fun _ _ hv hupdate hgone => Gone.update hv hgone hupdate) h

theorem remove_gone (hv : v.WellFormed) {d i : Nat} {name : Str} (hlive : v.liveChild d name = some i) :
    Gone (v.remove g d name).2 i := by
  obtain ⟨hi, n, hn⟩ := liveChild_eq_some.mp hlive
  obtain ⟨-, ids, hids, -⟩ := hv.child d name i hi
  obtain ⟨hmap, hnodes⟩ := remove_tables (g := g) hv hids name
  refine ⟨⟨kill n, by rw [hnodes, if_pos hi, (getNode_eq_some.mp hn).1, Option.map_some], rfl⟩, fun k hk => ?_⟩
  rw [hmap] at hk
  split_ifs at hk with hne
  exact hne (mapped_unique hv hk hi)

/-! ## What is made is staged -/

/-- Staged files stay staged, and nothing more is deleted. -/
structure StagesMore (staging staging' : StagingStore) : Prop where
  staged : ∀ i, staging.isStaged i = true → staging'.isStaged i = true
  deleted : staging'.deletedNodes = staging.deletedNodes

namespace StagesMore

variable {staging'' : StagingStore}

theorem refl (staging : StagingStore) : StagesMore staging staging := ⟨fun _ h => h, rfl⟩

theorem trans (h : StagesMore staging staging') (h' : StagesMore staging' staging'') : StagesMore staging staging'' :=
  ⟨fun i hi => h'.staged i (h.staged i hi), h'.deleted.trans h.deleted⟩

theorem stored (staging : StagingStore) (id : Nat) (content : Bytes) :
    StagesMore staging (staging.stored id content) := by
  refine ⟨fun i hi => ?_, rfl⟩
  unfold StagingStore.isStaged at hi ⊢
  rw [StagingStore.stored_lookup]
  split_ifs
  · rfl
  · exact hi

theorem record (staging : StagingStore) (path : Str) : StagesMore staging (staging.recordChangedPath path) := by
  unfold StagingStore.recordChangedPath
  simp only
  split_ifs
  · exact .refl staging
  · exact ⟨fun _ h => h, rfl⟩

end StagesMore

theorem stored_isStaged (staging : StagingStore) (id : Nat) (content : Bytes) :
    (staging.stored id content).isStaged id = true := by
  unfold StagingStore.isStaged
  rw [StagingStore.stored_lookup, if_pos rfl]
  rfl

/-- A file that no tree of the base has is staged. -/
def Made (v : VfsManager) (staging : StagingStore) : Prop :=
  ∀ i n, v.getNode i = some n → n.isDir = false → n.oid = [] → staging.isStaged i = true

namespace Made

theorem fate (hg : g.ParsedTrees) (h : Made v staging)
    (hstaged : ∀ i, staging.isStaged i = true → staging'.isStaged i = true) {i : Nat} (hfate : Fate g v v' i)
    {n : VfsNode} (hn : v'.getNode i = some n) (hfile : n.isDir = false) (hoid : n.oid = []) :
    staging'.isStaged i = true := by
  obtain ⟨hnode, hlive⟩ := getNode_eq_some.mp hn
  rcases hfate with ⟨-, hnone⟩ | @⟨m, m', hm, hm', hsame, hkind, halive⟩ | @⟨m', hm, hm', hdir | htree⟩
  · rw [hnode] at hnone
    cases hnone
  · rw [hnode, Option.some.injEq] at hm'
    subst hm'
    exact hstaged i (h i m (getNode_eq_some.mpr ⟨hm, halive hlive⟩) (hkind ▸ hfile) (hsame ▸ hoid))
  · rw [hnode, Option.some.injEq] at hm'
    rw [← hm', hfile] at hdir
    cases hdir
  · rw [hnode, Option.some.injEq] at hm'
    obtain ⟨d, dir, e, -, -, he, hid, -⟩ := htree
    exact absurd (hid.symm.trans (hm' ▸ hoid)) (entry_isOid hg he).ne_nil

theorem grows (hg : g.ParsedTrees) (h : Made v staging) (hgrows : VfsManager.Grows g v v')
    (hstaged : ∀ i, staging.isStaged i = true → staging'.isStaged i = true) : Made v' staging' :=
  fun i _ hn hfile hoid => h.fate hg hstaged (hgrows i) hn hfile hoid

theorem lookupParts_grows (hv : v.WellFormed) (curr : Nat) (parts : List Str) :
    VfsManager.Grows g v (v.lookupParts g curr parts).2 := by
  induction parts generalizing v curr with
  | nil => exact .refl g v
  | cons part parts ih =>
    rw [VfsManager.lookupParts]
    split_ifs
    · exact ih hv curr
    · have hlookup : VfsManager.Grows g v (v.lookup g curr part).2 := apply_grows hv (.lookup curr part) trivial
      have hv' := hv.lookup (g := g) curr part
      rcases hpart : v.lookup g curr part with ⟨_ | id, w⟩ <;> rw [hpart] at hlookup hv'
      · exact hlookup
      · exact hlookup.trans (ih hv' id)

theorem lookupPath (hg : g.ParsedTrees) (hv : v.WellFormed) (h : Made v staging) (path : Str) :
    Made (v.lookupPath g path).2 staging := by
  rw [lookupPath_eq]
  exact h.grows hg (lookupParts_grows hv _ _) fun _ h => h

end Made

variable {r r' : Replay}

namespace Replay

theorem createAt_made (hg : g.ParsedTrees) (hv : r.vfs.WellFormed) (h : Made r.vfs r.staging) {path : Str}
    {mode : TreeEntryMode} {id : Nat} (hat : r.createAt g path mode = .ok (id, r')) :
    Made r'.vfs r'.staging ∧ StagesMore r.staging r'.staging := by
  have hgrows : VfsManager.Grows g r.vfs (r.vfs.ensureParentDirs g path).2 :=
    apply_grows hv (.ensureParentDirs path) trivial
  have hv₁ := hv.ensureParentDirs (g := g) path
  unfold createAt at hat
  split at hat
  · simp at hat
  · rename_i parentId name v₁ hparent
    rw [hparent] at hgrows hv₁
    have hcases := createFile_cases (g := g) hv₁ parentId name mode
    split at hat
    · simp at hat
    · rename_i node v₂ hcreate
      rw [hcreate] at hcases
      simp only [StagingStore.createFile_ok, Except.ok.injEq, Prod.mk.injEq] at hat
      obtain ⟨rfl, rfl⟩ := hat
      obtain ⟨e, he, -⟩ | ⟨node', hnode, -, hothers⟩ := hcases
      · cases he
      · obtain rfl := Except.ok.inj hnode
        have hmore := StagesMore.stored r.staging node.id []
        refine ⟨fun i n hn hfile hoid => ?_, hmore⟩
        by_cases hi : i = node.id
        · rw [hi]
          exact stored_isStaged _ _ _
        · exact (h.grows hg hgrows fun _ h => h).fate hg hmore.staged (hothers i hi) hn hfile hoid

theorem writeNode_made (hg : g.ParsedTrees) (h : Made r.vfs r.staging) {id offset : Nat} {data : Bytes}
    (hwrite : r.writeNode g id offset data = .ok r') : Made r'.vfs r'.staging ∧ StagesMore r.staging r'.staging := by
  unfold writeNode at hwrite
  split at hwrite
  · simp at hwrite
  · rename_i node hnode
    rw [StagingStore.writeAt_ok] at hwrite
    obtain rfl := Except.ok.inj hwrite
    have hmore := StagesMore.stored r.staging id
      (writeBytes (r.staging.opened id (baseData g r.staging node)) offset data)
    exact ⟨h.grows hg (updateFileSize_grows _ _ _) hmore.staged, hmore⟩

/-- An entry that removes nothing. -/
theorem replayPayload_made (hg : g.ParsedTrees) (hv : r.vfs.WellFormed) (h : Made r.vfs r.staging)
    {payload : WalPayload} (hkeeps : ∀ path, payload ≠ .remove path)
    (hreplay : r.replayPayload g payload = .ok r') : Made r'.vfs r'.staging ∧ StagesMore r.staging r'.staging := by
  have hrecord (path : Str) : Made (r.record path).vfs (r.record path).staging :=
    h.grows hg (.refl g _) (StagesMore.record r.staging path).staged
  cases payload with
  | header _ =>
    obtain rfl := Except.ok.inj hreplay
    exact ⟨h, .refl _⟩
  | createFile create =>
    simp only [replayPayload, replayCreateFile] at hreplay
    cases hat : createAt g (r.record create.path) create.path (createMode create.inodeType) with
    | error e => simp [hat, Except.map] at hreplay
    | ok p =>
      simp only [hat, Except.map, Except.ok.injEq] at hreplay
      obtain ⟨hmade, hmore⟩ := createAt_made hg (r := r.record create.path) hv (hrecord _) hat
      exact hreplay ▸ ⟨hmade, (StagesMore.record _ _).trans hmore⟩
  | mkdir path =>
    have hparents : VfsManager.Grows g r.vfs (r.vfs.ensureParentDirs g path).2 :=
      apply_grows hv (.ensureParentDirs path) trivial
    have hv₁ := hv.ensureParentDirs (g := g) path
    simp only [replayPayload, replayMkdir, record_vfs] at hreplay
    split at hreplay
    · simp at hreplay
    · rename_i parentId name v₁ hpath
      rw [hpath] at hparents hv₁
      have hmkdir : VfsManager.Grows g v₁ (v₁.mkdir g parentId name).2 := apply_grows hv₁ (.mkdir parentId name) trivial
      split at hreplay
      · simp at hreplay
      · rename_i hdir
        rw [hdir] at hmkdir
        obtain rfl := Except.ok.inj hreplay
        exact ⟨(hrecord path).grows hg (hparents.trans hmkdir) fun _ h => h, .record _ _⟩
  | write path offset data =>
    have hlookup := (hrecord path).lookupPath hg hv path
    have hv₁ := hv.lookupPath (g := g) path
    simp only [replayPayload, replayWrite, record_vfs] at hreplay
    split at hreplay
    · rename_i id v₁ hpath
      rw [hpath] at hlookup
      obtain ⟨hmade, hmore⟩ := writeNode_made hg (r := { r.record path with vfs := v₁ }) hlookup hreplay
      exact ⟨hmade, (StagesMore.record _ _).trans hmore⟩
    · rename_i e v₁ hpath
      rw [hpath] at hlookup hv₁
      split at hreplay
      · simp at hreplay
      · rename_i id r₁ hat
        obtain ⟨hmade₁, hmore₁⟩ := createAt_made hg (r := { r.record path with vfs := v₁ }) hv₁ hlookup hat
        obtain ⟨hmade, hmore⟩ := writeNode_made hg hmade₁ hreplay
        exact ⟨hmade, ((StagesMore.record _ _).trans hmore₁).trans hmore⟩
  | truncate path newSize =>
    have hlookup := (hrecord path).lookupPath hg hv path
    simp only [replayPayload, replayTruncate, record_vfs] at hreplay
    split at hreplay
    · rename_i hpath
      rw [hpath] at hlookup
      obtain rfl := Except.ok.inj hreplay
      exact ⟨hlookup, .record _ _⟩
    · rename_i id v₁ hpath
      rw [hpath] at hlookup
      split at hreplay
      · simp at hreplay
      · rename_i node hnode
        rw [StagingStore.truncate_ok] at hreplay
        obtain rfl := Except.ok.inj hreplay
        have hmore := StagesMore.stored (r.record path).staging id
          (setLen ((r.record path).staging.opened id (baseData g (r.record path).staging node)) newSize)
        exact ⟨hlookup.grows hg (updateFileSize_grows _ _ _) hmore.staged, (StagesMore.record _ _).trans hmore⟩
  | remove path => exact absurd rfl (hkeeps path)
  | rename fromPath toPath =>
    have hfrom : VfsManager.Grows g r.vfs (r.vfs.ensureParentDirs g fromPath).2 :=
      apply_grows hv (.ensureParentDirs fromPath) trivial
    have hv₁ := hv.ensureParentDirs (g := g) fromPath
    have hmore := (StagesMore.record r.staging fromPath).trans (.record _ toPath)
    have hboth : Made r.vfs ((r.record fromPath).record toPath).staging := h.grows hg (.refl g _) hmore.staged
    obtain rfl := Except.ok.inj hreplay
    simp only [replayRename, record_vfs]
    split
    · rename_i hpath
      rw [hpath] at hfrom
      exact ⟨hboth.grows hg hfrom fun _ h => h, hmore⟩
    · rename_i fromParent fromName v₁ hpath
      rw [hpath] at hfrom hv₁
      have hto : VfsManager.Grows g v₁ (v₁.ensureParentDirs g toPath).2 :=
        apply_grows hv₁ (.ensureParentDirs toPath) trivial
      have hv₂ := hv₁.ensureParentDirs (g := g) toPath
      split
      · rename_i hpath'
        rw [hpath'] at hto
        exact ⟨hboth.grows hg (hfrom.trans hto) fun _ h => h, hmore⟩
      · rename_i toParent toName v₂ hpath'
        rw [hpath'] at hto hv₂
        have hmove : VfsManager.Grows g v₂ (v₂.rename g fromParent fromName toParent toName).2 :=
          apply_grows hv₂ (.rename fromParent fromName toParent toName) trivial
        exact ⟨hboth.grows hg ((hfrom.trans hto).trans hmove) fun _ h => h, hmore⟩

/-- A removal: what it marks as deleted is gone. -/
theorem replayRemove_made (hg : g.ParsedTrees) (hv : r.vfs.WellFormed) (h : Made r.vfs r.staging) {path : Str}
    (hchild : WalPayload.RemovesChild (.remove path)) :
    Made (r.replayRemove g path).vfs (r.replayRemove g path).staging ∧
      ∀ i, (r.replayRemove g path).staging.isDeleted i = true →
        r.staging.isDeleted i = true ∨ Gone (r.replayRemove g path).vfs i := by
  obtain ⟨name, hlast, hdots⟩ := hchild
  have hlookup := h.lookupPath hg hv path
  have hv₁ := hv.lookupPath (g := g) path
  unfold replayRemove
  split
  · rename_i hpath
    rw [hpath] at hlookup
    exact ⟨hlookup, fun _ hi => .inl hi⟩
  · rename_i id v₁ hpath
    rw [hpath] at hlookup hv₁
    obtain ⟨d, hparent, hlive⟩ := ensureParentDirs_again hv hlast hdots hpath
    simp only [hparent]
    refine ⟨?_, fun i hi => ?_⟩
    · exact hlookup.grows hg (apply_grows hv₁ (.remove d name) trivial) fun _ h => h
    · unfold StagingStore.isDeleted StagingStore.markDeleted at hi
      rw [List.contains_eq_mem, decide_eq_true_iff, List.mem_insert_iff] at hi
      rcases hi with rfl | hi
      · exact .inr (remove_gone hv₁ hlive)
      · left
        unfold StagingStore.isDeleted
        rw [List.contains_eq_mem, decide_eq_true_iff]
        exact hi

end Replay

/-! ## Over a replay -/

namespace Replay.Ready

theorem new (g : GitEngine) (rootOid : Str) : (Replay.new rootOid).Ready g where
  tidy := .new rootOid
  housed := .new rootOid
  dirs := .new rootOid
  gone := fun _ hi => by cases hi
  made := fun i n hn hfile => by
    obtain ⟨hnode, -⟩ := getNode_eq_some.mp hn
    simp only [Replay.new, VfsManager.new, Function.update_apply] at hnode
    split_ifs at hnode
    rw [← Option.some.inj hnode] at hfile
    cases hfile

theorem step (hg : g.CanonicalTrees) (hclosed : g.ClosedTrees) (h : r.Ready g) {entry : WalEntry}
    (horderly : entry.Orderly g r) (hchild : ∀ payload, entry.payload = some payload → payload.RemovesChild)
    (hstep : replayStep g r entry = some r') : r'.Ready g := by
  have hv := h.tidy.wellFormed
  cases hpayload : entry.payload with
  | none =>
    simp only [replayStep, hpayload, Option.some.injEq] at hstep
    exact hstep ▸ h
  | some payload =>
    have hreplay := (replayStep_some hpayload).mp hstep
    obtain ⟨hfresh, hpaths⟩ := horderly payload hpayload
    have hnames : ∀ path ∈ payload.paths, ∀ part ∈ components (trimMatches '/' path), treeLimits.name part := by
      intro path hpath part hpart
      rw [components_trimMatches] at hpart
      obtain ⟨-, hslash, hchars⟩ := mem_components hpart
      exact ⟨hslash, fun hnul => hpaths path hpath (hchars _ hnul)⟩
    have hupdates : Updates treeLimits g r.vfs r'.vfs :=
      Replay.replayPayload_updates hv treeLimits_createsWith hnames (.inr hfresh) hreplay
    have hmade : Made r'.vfs r'.staging ∧
        ∀ i, r'.staging.isDeleted i = true → r.staging.isDeleted i = true ∨ Gone r'.vfs i := by
      by_cases hremove : ∃ path, payload = .remove path
      · obtain ⟨path, rfl⟩ := hremove
        obtain rfl := Except.ok.inj hreplay
        have hrecord : Made (r.record path).vfs (r.record path).staging :=
          Made.grows hg.parsedTrees h.made (.refl g _) (StagesMore.record r.staging path).staged
        obtain ⟨hmade, hgone⟩ := Replay.replayRemove_made hg.parsedTrees (r := r.record path) hv hrecord
          (hchild _ hpayload)
        refine ⟨hmade, fun i hi => (hgone i hi).imp_left fun hdel => ?_⟩
        unfold StagingStore.isDeleted at hdel ⊢
        rwa [← (StagesMore.record r.staging path).deleted]
      · obtain ⟨hmade, hmore⟩ := Replay.replayPayload_made hg.parsedTrees hv h.made
          (fun path hpath => hremove ⟨path, hpath⟩) hreplay
        refine ⟨hmade, fun i hi => .inl ?_⟩
        unfold StagingStore.isDeleted at hi ⊢
        rwa [← hmore.deleted]
    exact {
      tidy := h.tidy.updates hg hupdates
      housed := hupdates.keeps (fun _ _ hv hupdate hh => hh.update hv hupdate) h.housed
      dirs := hupdates.keeps (fun _ _ hv hupdate he => he.update (loadedDirs_holds hclosed) hv hupdate) h.dirs
      gone := fun i hi => (hmade.2 i hi).elim (fun hdel => (h.gone i hdel).updates hupdates) id
      made := hmade.1 }

/-- Every replay is ready to be committed. -/
theorem replayed (hg : g.CanonicalTrees) (hclosed : g.ClosedTrees) {rootOid : Str} {entries : List WalEntry}
    (hmeets : Run.Meets (replayStep g) (fun r entry => entry.Orderly g r) (Replay.new rootOid) entries)
    (hremoves : ∀ entry ∈ entries, ∀ payload, entry.payload = some payload → payload.RemovesChild)
    (hreplay : replayWalEntries g entries (Replay.new rootOid) = .ok r) : r.Ready g := by
  have hstep : ∀ (r : Replay) (entry : WalEntry) (r' : Replay), r.Ready g →
      (entry.Orderly g r ∧ ∀ payload, entry.payload = some payload → payload.RemovesChild) →
      replayStep g r entry = some r' → r'.Ready g :=
    fun r entry r' h hok hstep => h.step hg hclosed hok.1 hok.2 hstep
  have hboth := Run.meets_and hmeets (Run.meets_of_mem _ hremoves)
  exact Run.invariant hstep hboth (run_replayStep.mpr hreplay) (new g rootOid)

end Replay.Ready

def undisturbedWithin (g : GitEngine) (v : VfsManager) (dirty : List Nat) : Bool :=
  (List.range v.nextInode).all fun d => dirty.contains d ||
    (v.dirChildren d).all fun ids => (v.nodes d).all fun n =>
      ((treeEntries g n.oid).all fun e => (lastEntry (treeEntries g n.oid) e.name).all fun e' =>
        (v.liveChild d e.name).any fun i => (v.nodes i).any fun c =>
          decide (c.mode = e'.mode ∧ c.oid = e'.oid ∧ c.isDir = e'.mode.isDir)) &&
      ids.all fun i => (v.nodes i).all fun c =>
        decide (c.oid = []) || (lastEntry (treeEntries g n.oid) c.name).isSome

theorem undisturbed_of_within {dirty : List Nat} (hv : v.WellFormed) (h : undisturbedWithin g v dirty = true) :
    Undisturbed g v dirty := by
  intro path d n ids _ hn hids hclean
  have hd := List.all_eq_true.mp h d (List.mem_range.mpr (hv.fresh d n hn))
  rw [Bool.or_eq_true, List.contains_iff_mem] at hd
  have hboth := hd.resolve_left hclean
  rw [hids, Option.all_some, hn, Option.all_some, Bool.and_eq_true] at hboth
  constructor
  · intro name e he
    obtain ⟨hmem, rfl⟩ := mem_of_lastEntry he
    have hentry := List.all_eq_true.mp hboth.1 e hmem
    rw [he, Option.all_some] at hentry
    obtain ⟨i, hi, hrest⟩ := (Option.any_eq_true _ _).mp hentry
    obtain ⟨c, hc, hsame⟩ := (Option.any_eq_true _ _).mp hrest
    exact ⟨i, c, hi, hc, of_decide_eq_true hsame⟩
  · intro name i c hlive hc hne
    obtain ⟨hi, -⟩ := liveChild_eq_some.mp hlive
    obtain ⟨⟨m, ⟨-, hm, -⟩, hname⟩, ids', hids', hmem⟩ := hv.child d name i hi
    rw [hids, Option.some.injEq] at hids'
    have hchild := List.all_eq_true.mp hboth.2 i (hids' ▸ hmem)
    rw [hc, Option.some.injEq] at hm
    rw [hc, Option.all_some, Bool.or_eq_true, decide_eq_true_eq, hm, hname] at hchild
    exact Option.isSome_iff_exists.mp (hchild.resolve_left (hm ▸ hne))

def collisionlessIn (g : GitEngine) (trees : List Bytes) (objects : List GitObjectToPack) : Bool :=
  trees.all fun raw =>
    (objects.all fun obj => decide (obj.oid ≠ computeGitSha1 .tree raw) ||
      decide (obj.objType = .tree ∧ obj.data = raw)) &&
    (g.getTree (computeGitSha1 .tree raw)).all fun t => decide ((GitTree.parse raw).toOption = some t)

theorem collisionless_of_in {trees : List Bytes} {objects : List GitObjectToPack}
    (h : collisionlessIn g trees objects = true) : Collisionless g trees objects := by
  constructor <;> intro raw hraw <;> have hall := List.all_eq_true.mp h raw hraw <;> rw [Bool.and_eq_true] at hall
  · intro obj hobj hoid
    have hsame := List.all_eq_true.mp hall.1 obj hobj
    rw [hoid, Bool.or_eq_true, decide_eq_true_eq, decide_eq_true_eq] at hsame
    exact hsame.resolve_left (not_not.mpr rfl)
  · intro t ht
    rw [ht, Option.all_some, decide_eq_true_eq] at hall
    exact toOption_eq_some hall.2

def stagedFilesIn (staging : StagingStore) (v : VfsManager) : Bool :=
  staging.listStagedNodes.all fun id => (v.getNode id).all fun n => !n.isDir

theorem stagedFiles_of_in (h : stagedFilesIn staging v = true) : StagedFiles staging v := by
  intro id hid n hn
  have hfile := List.all_eq_true.mp h id hid
  rw [hn, Option.all_some, Bool.not_eq_true'] at hfile
  exact hfile

theorem sampleTable_closedTrees : sampleTable.ClosedTrees := by
  intro oid e he hdir
  unfold treeEntries at he
  rw [sampleTable_getTree, sampleTrees] at he
  split_ifs at he with htop hsub
  · simp only [sampleTop, List.map_cons, List.map_nil, List.mem_cons, List.not_mem_nil, or_false] at he
    rcases he with rfl | rfl
    · exact absurd hdir (by decide)
    · exact ⟨⟨sampleSub.map SpelledEntry.entry⟩, by decide +kernel⟩
  · simp only [sampleSub, List.map_cons, List.map_nil, List.mem_cons, List.not_mem_nil, or_false] at he
    subst he
    exact absurd hdir (by decide)
  · simp at he

def movedOut : List WalEntry :=
  [createEntry "a/x".toList, ⟨0, 0, some (.rename "a/x".toList "b".toList)⟩, ⟨0, 0, some (.remove "a.txt".toList)⟩]

theorem movedOut_orderly : Run.Meets (replayStep sampleTable) (fun r entry => entry.Orderly sampleTable r)
    (Replay.new sampleTopOid) movedOut := by
  refine ⟨?_, fun _ _ => ⟨?_, fun _ _ => ⟨?_, fun _ _ => trivial⟩⟩⟩ <;>
    (intro payload hpayload; obtain rfl := Option.some.inj hpayload; exact ⟨trivial, by decide⟩)

theorem movedOut_removesChild :
    ∀ entry ∈ movedOut, ∀ payload, entry.payload = some payload → payload.RemovesChild := by
  intro entry hentry payload hpayload
  simp only [movedOut, createEntry, List.mem_cons, List.not_mem_nil, or_false] at hentry
  rcases hentry with rfl | rfl | rfl <;> obtain rfl := Option.some.inj hpayload
  · trivial
  · trivial
  · exact ⟨"a.txt".toList, by decide, by decide⟩

theorem movedOut_commits :
    ∃ r rebuilt, replayWalEntries sampleTable movedOut (Replay.new sampleTopOid) = .ok r ∧
      rebuildGitObjects r.vfs r.staging sampleTable [] [] ['m'] 0 = some (.ok rebuilt) ∧
      StagedFiles r.staging r.vfs ∧ r.CleanUndisturbed sampleTable ∧
      Collisionless sampleTable (treesOfCommit sampleTable r.staging r.vfs) rebuilt.objects := by
  have hsome : ((replayWalEntries sampleTable movedOut (Replay.new sampleTopOid)).toOption.any fun r =>
      stagedFilesIn r.staging r.vfs &&
      ((dirtyDirs r.vfs (r.staging.listStagedNodes ++ r.staging.listDeletedNodes)).all fun dirty =>
        undisturbedWithin sampleTable r.vfs dirty) &&
      ((rebuildGitObjects r.vfs r.staging sampleTable [] [] ['m'] 0).bind Except.toOption).any fun rebuilt =>
        collisionlessIn sampleTable (treesOfCommit sampleTable r.staging r.vfs) rebuilt.objects) = true := by
    decide +kernel
  obtain ⟨r, hr, hall⟩ := (Option.any_eq_true _ _).mp hsome
  rw [Bool.and_eq_true, Bool.and_eq_true] at hall
  obtain ⟨⟨hfiles, hclean⟩, hrebuilt⟩ := hall
  obtain ⟨rebuilt, hrebuilt, hnames⟩ := (Option.any_eq_true _ _).mp hrebuilt
  obtain ⟨res, hres, hok⟩ := Option.bind_eq_some_iff.mp hrebuilt
  rw [toOption_eq_some hok] at hres
  have hready : r.Ready sampleTable := .replayed sampleTable_canonicalTrees sampleTable_closedTrees movedOut_orderly
    movedOut_removesChild (toOption_eq_some hr)
  refine ⟨r, rebuilt, toOption_eq_some hr, hres, stagedFiles_of_in hfiles, fun dirty hdirty => ?_,
    collisionless_of_in hnames⟩
  rw [hdirty, Option.all_some] at hclean
  exact undisturbed_of_within hready.tidy.wellFormed hclean

end GitNfs
