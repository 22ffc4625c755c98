import GitNfs.Wal.Stamps

/-! # A commit shows what was replayed

The tables and the staging store after a replay on one side, an engine that has taken in the objects of the
commit on the other: path by path they have the same files.
-/

namespace GitNfs

open VfsManager

/-- The file at a path after a replay: its mode, and the blob of its staged content or its own. -/
def Replay.fileAt (g : GitEngine) (r : Replay) (path : List Str) : Option (TreeEntryMode × Str) :=
  (placeAt g r.vfs path).bind fun place =>
    match place with
    | .entry e => r.vfs.fileOf (.entry e)
    | .node i => (r.vfs.fileOf (.node i)).map fun file => (file.1, r.staging.blobOf i file.2)

/-- Every directory of a tree that is loaded is loaded. -/
def GitEngine.ClosedTrees (g : GitEngine) : Prop :=
  ∀ oid, ∀ e ∈ treeEntries g oid, e.mode.isDir = true → g.Loaded e.oid

/-- A deleted node that no name leads to. -/
def Gone (v : VfsManager) (i : Nat) : Prop :=
  (∃ n, v.nodes i = some n ∧ n.isDeleted = true) ∧ ∀ k, v.childMap k ≠ some i

/-- What holds after every replay over a base whose trees are all there. -/
structure Replay.Ready (g : GitEngine) (r : Replay) : Prop where
  tidy : Tidy r.vfs
  housed : Housed r.vfs
  dirs : r.vfs.Each fun n => n.isDir = true → n.oid = [] ∨ g.Loaded n.oid
  gone : ∀ i, r.staging.isDeleted i = true → Gone r.vfs i
  made : ∀ i n, r.vfs.getNode i = some n → n.isDir = false → n.oid = [] → r.staging.isStaged i = true

/-- What is staged is files. -/
def StagedFiles (staging : StagingStore) (v : VfsManager) : Prop :=
  ∀ id ∈ staging.listStagedNodes, ∀ n, v.getNode id = some n → n.isDir = false

/-- The directories that are not written again show their trees. -/
def Replay.CleanUndisturbed (g : GitEngine) (r : Replay) : Prop :=
  ∀ dirty, dirtyDirs r.vfs (r.staging.listStagedNodes ++ r.staging.listDeletedNodes) = some dirty →
    Undisturbed g r.vfs dirty

/-- No tree of a commit has the id of another object of it, or of another tree of the base. -/
structure Collisionless (g : GitEngine) (trees : List Bytes) (objects : List GitObjectToPack) : Prop where
  packed : ∀ raw ∈ trees, ∀ obj ∈ objects, obj.oid = computeGitSha1 .tree raw → obj.objType = .tree ∧ obj.data = raw
  loaded : ∀ raw ∈ trees, ∀ t, g.getTree (computeGitSha1 .tree raw) = some t → GitTree.parse raw = .ok t

variable {g : GitEngine} {staging : StagingStore} {dirty : List Nat} {v v₁ w : VfsManager}

/-- A file that a plain path leads to is live and has a name of the path. -/
theorem plainPath_file (hv : v.WellFormed) {path : List Str} (hpath : PlainPath path) {i : Nat} {n : VfsNode}
    (hplace : placeAt g v path = some (.node i)) (hn : v.nodes i = some n) (hdir : n.isDir = false) :
    v.getNode i = some n ∧ isAppleMetadata n.name = false := by
  rcases List.eq_nil_or_concat path with rfl | ⟨above, name, rfl⟩
  · obtain ⟨m, hm, hmdir, -⟩ := hv.root
    simp only [placeAt, placeFrom, Walk.walk, Option.some.injEq, Place.node.injEq] at hplace
    rw [← hplace, hm, Option.some.injEq] at hn
    rw [← hn, hmdir] at hdir
    cases hdir
  · rw [placeAt, placeFrom, List.concat_eq_append, Walk.walk_concat] at hplace
    obtain ⟨b, -, hb⟩ := Option.bind_eq_some_iff.mp hplace
    obtain ⟨d, rfl, hlive, -⟩ := childAt_node hb
    obtain ⟨c, hc, -, hname, -⟩ := liveChild_facts hv hlive
    obtain ⟨hnode, -⟩ := getNode_eq_some.mp hc
    rw [hn, Option.some.injEq] at hnode
    subst hnode
    exact ⟨hc, hname ▸ hpath name (by simp)⟩

/-! ## Tables that were stamped -/

/-- The tables before and after the blobs of the staged files were made. -/
structure StampedFrom (staging : StagingStore) (v v₁ : VfsManager) : Prop where
  nodes : ∀ i, v₁.nodes i = (v.nodes i).map (stampedNode staging staging.listStagedNodes i)
  childMap : v₁.childMap = v.childMap
  lists : v₁.dirChildren = v.dirChildren
  files : StagedFiles staging v

namespace StampedFrom

theorem getNode (h : StampedFrom staging v v₁) (i : Nat) :
    v₁.getNode i = (v.getNode i).map (stampedNode staging staging.listStagedNodes i) := by
  unfold VfsManager.getNode
  rw [h.nodes]
  cases v.nodes i with
  | none => rfl
  | some n =>
    simp only [Option.map_some, stampedNode_isDeleted]
    cases n.isDeleted <;> rfl

/-- A node that is there was there, with another id at most. -/
theorem back (h : StampedFrom staging v v₁) {i : Nat} {n : VfsNode} (hn : v₁.getNode i = some n) :
    ∃ m, v.getNode i = some m ∧ n = stampedNode staging staging.listStagedNodes i m := by
  rw [h.getNode, Option.map_eq_some_iff] at hn
  obtain ⟨m, hm, rfl⟩ := hn
  exact ⟨m, hm, rfl⟩

theorem liveChild (h : StampedFrom staging v v₁) (d : Nat) (name : Str) : v₁.liveChild d name = v.liveChild d name := by
  unfold VfsManager.liveChild
  rw [h.childMap]
  cases v.childMap (d, name) with
  | none => rfl
  | some i =>
    simp only [h.getNode]
    cases v.getNode i <;> rfl

/-- A directory keeps its id. -/
theorem dir (h : StampedFrom staging v v₁) {i : Nat} {n : VfsNode} (hn : v.nodes i = some n) (hdir : n.isDir = true) :
    v₁.nodes i = some n := by
  rw [h.nodes, hn, Option.map_some, stampedNode, if_neg]
  rintro ⟨hi, hlive, -⟩
  rw [h.files i hi n (getNode_eq_some.mpr ⟨hn, hlive⟩)] at hdir
  cases hdir

theorem childAt (h : StampedFrom staging v v₁) (place : Place) (name : Str) :
    childAt g v₁ place name = childAt g v place name := by
  cases hdots : isDots name with
  | true => rw [childAt_dots hdots, childAt_dots hdots]
  | false =>
    cases place with
    | entry e => rw [childAt_entry hdots, childAt_entry hdots]
    | node d =>
      unfold VfsManager.childAt
      simp only [hdots, Bool.false_eq_true, if_false, h.lists, h.liveChild]
      cases v.dirChildren d with
      | some ids => rfl
      | none =>
        cases hn : v.nodes d with
        | none => simp [h.nodes, hn]
        | some n =>
          cases hdir : n.isDir with
          | true => rw [h.dir hn hdir]
          | false =>
            simp only [h.nodes, hn, Option.map_some, Option.bind_some, entryAt, stampedNode_isDir, hdir,
              Bool.false_eq_true, if_false]

theorem placeAt (h : StampedFrom staging v v₁) (path : List Str) : placeAt g v₁ path = placeAt g v path := by
  unfold VfsManager.placeAt placeFrom
  congr 1
  funext place name
  exact h.childAt place name

/-- The staged files have the ids of their blobs. -/
theorem fileAt (h : StampedFrom staging v v₁) (hv : v.WellFormed) {path : List Str} (hpath : PlainPath path) :
    VfsManager.fileAt g v₁ path = Replay.fileAt g ⟨v, staging⟩ path := by
  unfold VfsManager.fileAt fileFrom Replay.fileAt
  have hplace := h.placeAt (g := g) path
  unfold VfsManager.placeAt at hplace ⊢
  rw [hplace]
  cases ha : placeFrom g v (.node rootInode) path with
  | none => rfl
  | some a =>
    cases a with
    | entry e => rfl
    | node i =>
      simp only [Option.bind_some, fileOf_node, h.nodes]
      cases hn : v.nodes i with
      | none => rfl
      | some n =>
        simp only [Option.map_some, Option.bind_some, stampedNode_isDir, stampedNode_mode]
        cases hdir : n.isDir with
        | true => rfl
        | false =>
          simp only [Bool.false_eq_true, if_false, Option.map_some, Option.some.injEq, Prod.mk.injEq, true_and]
          by_cases hstaged : i ∈ staging.listStagedNodes
          · obtain ⟨hlive, hplain⟩ := plainPath_file hv hpath ha hn hdir
            rw [stampedNode, if_pos ⟨hstaged, (getNode_eq_some.mp hlive).2, hplain⟩]
          · rw [stampedNode, if_neg fun h => hstaged h.1, StagingStore.blobOf_unstaged]
            unfold StagingStore.isStaged
            rw [← Bool.not_eq_true, AList.lookup_isSome]
            exact hstaged

end StampedFrom

/-! ## Populating more directories -/

theorem populate_showsTree (hv : v.WellFormed) {d : Nat} (dir : VfsNode) (hd : v.dirChildren d = none) :
    ShowsTree g (v.populate g d dir.oid) d dir := by
  constructor
  · intro name e he
    rcases populate_last (g := g) dir.oid hv hd name with ⟨hnone, -⟩ | ⟨i, e', hlast, hi, hmap⟩
    · rw [he] at hnone
      cases hnone
    · rw [he, Option.some.injEq] at hlast
      subst hlast
      have hnode := populate_nodes_new (g := g) hv hd hi
      exact ⟨_, _, liveChild_eq_some.mpr ⟨hmap, _, getNode_eq_some.mpr ⟨hnode, rfl⟩⟩, hnode, rfl, rfl, rfl⟩
  · intro name i c hlive _ _
    rcases populate_last (g := g) dir.oid hv hd name with ⟨-, hmap⟩ | ⟨-, e, hlast, -, -⟩
    · rw [liveChild_of_unmapped hmap] at hlive
      cases hlive
    · exact ⟨e, hlast⟩

theorem populate_undisturbed (hv : v.WellFormed) (h : Undisturbed g v dirty) {d : Nat} {dir : VfsNode}
    (hd : v.dirChildren d = none) (hdir : v.nodes d = some dir) (hisDir : dir.isDir = true) :
    Undisturbed g (v.populate g d dir.oid) dirty := by
  intro path d' n ids hplace hn hids hclean
  by_cases hsame : d' = d
  · subst hsame
    rw [populate_nodes_old hv hd hdir, Option.some.injEq] at hn
    exact hn ▸ populate_showsTree hv dir hd
  · have hold : v.dirChildren d' = some ids := by
      rwa [populate_dirChildren (hv.unmapped hd), if_neg hsame] at hids
    obtain ⟨-, ⟨m, hm, -⟩, hlist⟩ := hv.listed d' ids hold
    rw [populate_nodes_old hv hd hm, Option.some.injEq] at hn
    subst hn
    -- the path led there before
    have hplace' : placeAt g v path = some (.node d') := by
      obtain ⟨root, hroot, -⟩ := hv.root
      have htracks : Tracks g v (v.populate g d dir.oid) := populate_tracks hv hd hdir hisDir
      have hrel := htracks.place (.node hroot) path
      unfold VfsManager.placeAt at hplace ⊢
      rw [hplace] at hrel
      obtain ⟨a, ha, hbecomes⟩ := Walk.rel_some_right hrel
      cases hbecomes with
      | node _ => exact ha
      | made _ _ hnone =>
        rw [hids] at hnone
        cases hnone
    obtain ⟨hentry, hchild⟩ := h path d' m ids hplace' hm hold hclean
    constructor
    · intro name e he
      obtain ⟨i, c, hlive, hc, hrest⟩ := hentry name e he
      exact ⟨i, c, (populate_liveChild_ne hv hd hsame name).trans hlive, populate_nodes_old hv hd hc, hrest⟩
    · intro name i c hlive hc hne
      rw [populate_liveChild_ne hv hd hsame] at hlive
      obtain ⟨c', hc', -⟩ := liveChild_facts hv hlive
      rw [populate_nodes_old hv hd (getNode_eq_some.mp hc').1, Option.some.injEq] at hc
      exact hchild name i c hlive (hc ▸ (getNode_eq_some.mp hc').1) hne

theorem populate_stamped (hg : g.ParsedTrees) (hv : v.WellFormed) (h : FilesStamped v) {d : Nat} {dir : VfsNode}
    (hd : v.dirChildren d = none) : FilesStamped (v.populate g d dir.oid) := by
  intro i n hn hfile hname
  obtain ⟨hnode, hlive⟩ := getNode_eq_some.mp hn
  rcases populate_nodes_cases hv hd hnode with hold | ⟨k, e, he, -, rfl⟩
  · exact h i n (getNode_eq_some.mpr ⟨hold, hlive⟩) hfile hname
  · exact (entry_isOid hg (List.mem_of_getElem? he)).ne_nil

/-- What the recursion over the dirty directories leaves as it was. -/
structure Populates (g : GitEngine) (dirty : List Nat) (v w : VfsManager) : Prop where
  wellFormed : w.WellFormed
  sameTree : SameTree g v w
  undisturbed : Undisturbed g v dirty → Undisturbed g w dirty
  stamped : FilesStamped v → FilesStamped w
  lists : ∀ d ids, v.dirChildren d = some ids → w.dirChildren d = some ids

namespace Populates

variable {u : VfsManager}

theorem refl (hv : v.WellFormed) : Populates g dirty v v := ⟨hv, Tracks.sameTree (.refl v), id, id, fun _ _ h => h⟩

theorem trans (h : Populates g dirty u v) (h' : Populates g dirty v w) : Populates g dirty u w where
  wellFormed := h'.wellFormed
  sameTree := h.sameTree.trans h'.sameTree
  undisturbed := fun hu => h'.undisturbed (h.undisturbed hu)
  stamped := fun hu => h'.stamped (h.stamped hu)
  lists := fun d ids hids => h'.lists d ids (h.lists d ids hids)

end Populates

theorem rebuildTreeRecursive_populates (hg : g.ParsedTrees) {fuel id : Nat} {objs objs' : NewObjects}
    {res : Except Error Str} (hv : v.WellFormed)
    (h : rebuildTreeRecursive g staging dirty fuel id v objs = some (res, w, objs')) : Populates g dirty v w := by
  refine rebuildTreeRecursive_keeps (P := fun v w => v.WellFormed → Populates g dirty v w) (fun v hv => .refl hv)
    (fun u v w h h' hu => (h hu).trans (h' (h hu).wellFormed)) (fun v d hv => ?_) _ _ _ _ _ _ h hv
  refine ⟨hv.ensureDirPopulated d, ensureDirPopulated_sameTree hv d, fun h => ?_, fun h => ?_,
    (Later.ensureDirPopulated hv d).lists⟩ <;>
  rcases ensureDirPopulated_cases g v d with ⟨ids, -, heq⟩ | ⟨dir, hd, hdir, hisDir, heq⟩ | ⟨e, heq⟩ <;> rw [heq]
  · exact h
  · exact populate_undisturbed hv h hd hdir hisDir
  · exact h
  · exact h
  · exact populate_stamped hg hv h hd
  · exact h

/-- A directory that was written has a list. -/
theorem rebuildTreeRecursive_listed (hg : g.ParsedTrees) {fuel id : Nat} {objs objs' : NewObjects} {treeSha : Str}
    (hv : v.WellFormed) (h : rebuildTreeRecursive g staging dirty fuel id v objs = some (.ok treeSha, w, objs')) :
    ∃ ids, w.dirChildren id = some ids := by
  cases fuel with
  | zero => simp [rebuildTreeRecursive] at h
  | succ fuel =>
    rw [rebuildTreeRecursive] at h
    split at h
    · simp at h
    · rename_i children v₁ hlist
      have hids : v₁.WellFormed ∧ ∃ ids, v₁.dirChildren id = some ids := by
        unfold VfsManager.listDir at hlist
        split at hlist
        · simp at hlist
        · rename_i hpop
          simp only [Prod.mk.injEq] at hlist
          exact hlist.2 ▸ hv.ensureDirPopulated_ok hpop
      obtain ⟨hv₁, ids, hids⟩ := hids
      have hloop {children raw res v₂ objs₂} (heq : rebuildChildren dirty (rebuildTreeRecursive g staging dirty fuel)
          children v₁ objs raw = some (res, v₂, objs₂)) : v₂.dirChildren id = some ids := by
        have hkeeps := rebuildChildren_keeps (P := fun v w => v.WellFormed → Populates g dirty v w)
          (fun v hv => .refl hv) (fun u v w h h' hu => (h hu).trans (h' (h hu).wellFormed))
          (fun id v objs res v' objs' heq hv => rebuildTreeRecursive_populates hg hv heq) heq hv₁
        exact hkeeps.lists id ids hids
      split at h
      · simp at h
      · simp at h
      · rename_i heq
        simp only at h
        split at h <;> simp only [Option.some.injEq, Prod.mk.injEq] at h <;> exact ⟨ids, h.2.1 ▸ hloop heq⟩

/-! ## The engine that has the commit -/

section Engine

variable {g' : GitEngine} {trees : List Bytes} {objects : List GitObjectToPack} {dirLen : Option Nat}
  {commitOid rootOid : Str}

/-- What is a tree among the objects is one of the trees, under its id. -/
def TreesAmong (trees : List Bytes) (objects : List GitObjectToPack) : Prop :=
  ∀ obj ∈ objects, obj.objType = .tree → obj.data ∈ trees ∧ obj.oid = computeGitSha1 .tree obj.data

/-- A tree of the base stays. -/
theorem applied_keeps (hnames : Collisionless g trees objects) (hobjects : TreesAmong trees objects) {oid : Str}
    {t : GitTree} (ht : g.getTree oid = some t) :
    (g.applyRecoveredObjects dirLen commitOid rootOid objects).getTree oid = some t := by
  refine GitEngine.applyRecoveredObjects_tree ht fun obj hobj htype hoid => ?_
  obtain ⟨hmem, hsha⟩ := hobjects obj hobj htype
  exact hnames.loaded _ hmem t (by rw [← hsha, hoid, ht])

/-- A tree among the objects is in the table afterwards. -/
theorem applied_tree {raw : Bytes} {t : GitTree} (hparse : GitTree.parse raw = .ok t)
    (hpacked : ∀ obj ∈ objects, obj.oid = computeGitSha1 .tree raw → obj.objType = .tree ∧ obj.data = raw)
    (hsome : g.getTree (computeGitSha1 .tree raw) = some t ∨ ∃ obj ∈ objects, obj.oid = computeGitSha1 .tree raw) :
    (objects.foldl (GitEngine.applyObject dirLen) g).getTree (computeGitSha1 .tree raw) = some t := by
  induction objects generalizing g with
  | nil =>
    obtain ht | ⟨obj, hobj, -⟩ := hsome
    · exact ht
    · exact absurd hobj List.not_mem_nil
  | cons obj objects ih =>
    rw [List.foldl_cons]
    refine ih (fun o ho => hpacked o (List.mem_cons_of_mem _ ho)) ?_
    by_cases hobj : obj.oid = computeGitSha1 .tree raw
    · obtain ⟨htype, hdata⟩ := hpacked obj List.mem_cons_self hobj
      left
      unfold GitEngine.applyObject GitEngine.getTree
      simp only [htype, hdata, hparse, hobj, Function.update_self]
    · rcases hsome with ht | ⟨o, ho, hoid⟩
      · exact .inl (GitEngine.applyObject_tree ht fun _ hoid => absurd hoid hobj)
      · rcases List.mem_cons.mp ho with rfl | ho
        · exact absurd hoid hobj
        · exact .inr ⟨o, ho, hoid⟩

/-- Below a tree that is loaded nothing changes. -/
theorem fileIn_kept (hclosed : g.ClosedTrees) (hkeep : ∀ oid t, g.getTree oid = some t → g'.getTree oid = some t)
    {oid : Str} (hloaded : g.Loaded oid) (path : List Str) : g'.fileIn oid path = g.fileIn oid path := by
  induction path generalizing oid with
  | nil => rfl
  | cons name path ih =>
    obtain ⟨t, ht⟩ := hloaded
    have hentries : treeEntries g' oid = treeEntries g oid := by
      unfold treeEntries
      rw [ht, hkeep oid t ht]
    rw [GitEngine.fileIn, GitEngine.fileIn, hentries]
    cases isDots name with
    | true => rfl
    | false =>
      rw [if_neg Bool.false_ne_true, if_neg Bool.false_ne_true]
      cases he : lastEntry (treeEntries g oid) name with
      | none => rfl
      | some e =>
        rw [Option.bind_some, Option.bind_some]
        by_cases hdir : e.mode.isDir = true
        · have hmem : e ∈ treeEntries g oid := List.mem_reverse.mp (List.mem_of_find?_eq_some he)
          rw [if_pos hdir, if_pos hdir, ih (hclosed oid e hmem hdir)]
        · rw [if_neg hdir, if_neg hdir]

theorem committedTrees_parse (hw : w.WellFormed) (hall : w.Each Entrant) (fuel d : Nat) :
    ∀ raw ∈ committedTrees staging dirty w fuel d, ∃ t, GitTree.parse raw = .ok t := by
  induction fuel generalizing d with
  | zero => exact fun raw hraw => absurd hraw List.not_mem_nil
  | succ fuel ih =>
    intro raw hraw
    rw [committedTrees] at hraw
    rcases List.mem_cons.mp hraw with rfl | hraw
    · obtain ⟨t, ht, -⟩ := parse_children dirty (fun id => (committedTrees staging dirty w fuel id).headD [])
        (validChildren staging (w.listing d)) fun c hc => listing_each hw hall (mem_validChildren.mp hc).1
      exact ⟨t, ht⟩
    · obtain ⟨child, -, hraw⟩ := List.mem_flatMap.mp hraw
      split_ifs at hraw
      · exact ih child.id raw hraw
      · exact absurd hraw List.not_mem_nil

end Engine

/-! ## Before and after -/

theorem CanonicalTrees.noEntries (hg : g.CanonicalTrees) : treeEntries g [] = [] := by
  rcases hg.treeEntries [] with hnil | ⟨es, hes, -⟩
  · exact hnil
  · exact absurd hes.named (computeGitSha1_isOid _ _).ne_nil

theorem loadedDirs_holds (hclosed : g.ClosedTrees) :
    Holds treeLimits g fun n => n.isDir = true → n.oid = [] ∨ g.Loaded n.oid where
  entry := fun oid e he _ _ hdir => .inr (hclosed oid e he hdir)
  file := fun _ _ _ _ _ _ _ => .inl rfl
  dir := fun _ _ _ _ _ => .inl rfl
  state := fun _ hn _ _ => hn
  place := fun _ hn _ _ _ => hn

section

variable {r : Replay} {v₂ : VfsManager} {base author message : Str} {timestamp : Nat} {rebuilt : RebuiltObjects}

/-- What is noted as deleted is not among the nodes. -/
theorem Replay.Ready.kept (h : r.Ready g) {i : Nat} {n : VfsNode} (hn : r.vfs.getNode i = some n) :
    r.staging.isDeleted i = false := by
  by_contra hdel
  obtain ⟨⟨m, hm, hmdel⟩, -⟩ := h.gone i (Bool.not_eq_false _ ▸ hdel)
  obtain ⟨hnode, hlive⟩ := getNode_eq_some.mp hn
  rw [hm, Option.some.injEq] at hnode
  rw [hnode, hlive] at hmdel
  cases hmdel

/-- The directories that are written again: there, listed, each with the one above it, and all that have a staged
file. -/
theorem Replay.Ready.dirty_meets (h : r.Ready g) (hfiles : StagedFiles r.staging r.vfs)
    (hdirty : dirtyDirs r.vfs (r.staging.listStagedNodes ++ r.staging.listDeletedNodes) = some dirty) :
    rootInode ∈ dirty ∧
      (∀ d ∈ dirty, (∃ n, r.vfs.nodes d = some n) ∧ (d ≠ rootInode → ∃ cs, r.vfs.dirChildren d = some cs)) ∧
      ClosedUp r.vfs dirty ∧ ∀ id ∈ r.staging.listStagedNodes, ∀ n, r.vfs.getNode id = some n → n.parentId ∈ dirty := by
  have hids : ∀ id ∈ r.staging.listStagedNodes ++ r.staging.listDeletedNodes, ∀ n, r.vfs.getNode id = some n →
      n.isDir = false := by
    intro id hid n hn
    rcases List.mem_append.mp hid with hid | hid
    · exact hfiles id hid n hn
    · have hdel := h.kept hn
      unfold StagingStore.isDeleted at hdel
      rw [List.contains_eq_mem, decide_eq_false_iff_not] at hdel
      exact absurd hid hdel
  obtain ⟨hroot, hmeets, hup, habove⟩ := dirtyDirs_meets h.tidy.wellFormed h.housed hids hdirty
  exact ⟨hroot, hmeets, hup, fun id hid => habove id (List.mem_append_left _ hid)⟩

/-- Of what a replay leaves behind everything is ready to be written. -/
theorem Replay.Ready.writtenFrom (hg : g.CanonicalTrees) (hclosed : g.ClosedTrees) (h : r.Ready g)
    (hstamped : StampedFrom r.staging r.vfs v₁) (htidy : Tidy v₁)
    (hcontents : ∀ i ∈ r.staging.listStagedNodes, ∀ n, r.vfs.getNode i = some n → isAppleMetadata n.name = false →
      ∃ content, r.staging.getStagedContent i = .ok content)
    (hroot : rootInode ∈ dirty) (hpop : Populates g dirty v₁ w) (hupdates : ∀ lim, Updates lim g v₁ w)
    (hlater : Later v₁ w) {g' : GitEngine} (hkeep : ∀ oid t, g.getTree oid = some t → g'.getTree oid = some t) :
    WrittenFrom g g' r.staging dirty w := by
  refine ⟨htidy.updates hg (hupdates treeLimits), CanonicalTrees.noEntries hg,
    hpop.stamped fun i n hn hfile hname => ?_, fun i n hn => ?_, fun d n path hn hdir hd hne => ?_⟩
  · obtain ⟨m, hm, rfl⟩ := hstamped.back hn
    rw [stampedNode_isDir] at hfile
    rw [stampedNode_name] at hname
    obtain ⟨-, hlive⟩ := getNode_eq_some.mp hm
    by_cases hi : i ∈ r.staging.listStagedNodes
    · obtain ⟨content, hcontent⟩ := hcontents i hi m hm hname
      have hstaged : r.staging.isStaged i = true := AList.lookup_isSome.mpr hi
      rw [stampedNode, if_pos ⟨hi, hlive, hname⟩]
      unfold StagingStore.getStagedContent at hcontent
      rw [if_pos hstaged] at hcontent
      unfold StagingStore.blobOf StagingStore.getStagedContent
      rw [if_pos hstaged]
      cases hfile : r.staging.files i with
      | none => simp [hfile] at hcontent
      | some bytes => exact (computeGitSha1_isOid _ _).ne_nil
    · rw [stampedNode, if_neg fun h => hi h.1]
      intro hempty
      exact hi (AList.lookup_isSome.mp (h.made i m hm hfile hempty))
  · by_contra hdel
    obtain ⟨⟨m, hm, hmdel⟩, -⟩ := h.gone i (Bool.not_eq_false _ ▸ hdel)
    have hm₁ : v₁.nodes i = some _ := (hstamped.nodes i).trans (congrArg _ hm)
    rw [hlater.getNode hm₁] at hn
    obtain ⟨hnode, hlive⟩ := getNode_eq_some.mp hn
    rw [hm₁, Option.some.injEq] at hnode
    rw [← hnode, stampedNode_isDeleted, hmdel] at hlive
    cases hlive
  · have hdirs : v₁.Each fun n => n.isDir = true → n.oid = [] ∨ g.Loaded n.oid := by
      intro i n hn hroot hdir
      rw [hstamped.nodes, Option.map_eq_some_iff] at hn
      obtain ⟨m, hm, rfl⟩ := hn
      rw [stampedNode_isDir] at hdir
      have hsame := (hstamped.nodes i).symm.trans (hstamped.dir hm hdir)
      rw [hm, Option.map_some, Option.some.injEq] at hsame
      rw [hsame]
      exact h.dirs i m hm hroot hdir
    have hdirs' := (hupdates treeLimits).keeps
      (fun _ _ hv hupdate he => he.update (loadedDirs_holds hclosed) hv hupdate) hdirs
    have hne' : d ≠ rootInode := fun heq => hd (heq ▸ hroot)
    exact fileIn_kept hclosed hkeep ((hdirs' d n hn hne' hdir).resolve_left hne) path

/-- What a commit was made of: the tables with the blobs of the staged files, and with what was populated for the
trees. -/
structure CommitOf (g : GitEngine) (r : Replay) (g' : GitEngine) (rootOid : Str) (dirty : List Nat)
    (v₁ w : VfsManager) : Prop where
  stamped : StampedFrom r.staging r.vfs v₁
  dirtied : dirtyDirs r.vfs (r.staging.listStagedNodes ++ r.staging.listDeletedNodes) = some dirty
  wellFormed : v₁.WellFormed
  populates : Populates g dirty v₁ w
  later : Later v₁ w
  written : WrittenFrom g g' r.staging dirty w
  root : ∃ ids, w.dirChildren rootInode = some ids
  shows : ∀ path, PlainPath path → VfsManager.fileAt g' (VfsManager.new rootOid) path =
    committedFile g w dirty rootInode path

/-- A server that starts from a commit shows, path by path, what the dirty directories lead to. -/
theorem rebuildGitObjects_commits (hg : g.CanonicalTrees) (hclosed : g.ClosedTrees) (h : r.Ready g)
    (hfiles : StagedFiles r.staging r.vfs)
    (hrebuild : rebuildGitObjects r.vfs r.staging g base author message timestamp = some (.ok rebuilt))
    (hnames : Collisionless g (treesOfCommit g r.staging r.vfs) rebuilt.objects) (dirLen : Option Nat) :
    ∃ dirty v₁ w, CommitOf g r (g.applyRecoveredObjects dirLen rebuilt.commitOid rebuilt.rootTreeOid rebuilt.objects)
      rebuilt.rootTreeOid dirty v₁ w := by
  obtain ⟨v₁, objs, dirty, w, objs', text, hblobs, hdirty, hrec, hcommitOid, hobjects⟩ :=
    rebuildGitObjects_parts hrebuild
  obtain ⟨hnodes, hmap, hlists, hnext, hkinds⟩ := stagedBlobs_stamps hblobs
  have hstamped : StampedFrom r.staging r.vfs v₁ := ⟨hnodes, hmap, hlists, hfiles⟩
  obtain ⟨htidy, -⟩ := stagedBlobs_tidy h.tidy (fun k obj hk => by simp at hk) hblobs
  have hv₁ := htidy.wellFormed
  have hsamewalk : dirtyDirs r.vfs (r.staging.listStagedNodes ++ r.staging.listDeletedNodes) = some dirty := by
    rw [← hdirty]
    unfold dirtyDirs
    rw [hnext]
    congr 1
    funext before id
    refine (dirtyWalk_congr (fun i => ?_) _ _ _).symm
    rw [hstamped.getNode, Option.map_map]
    cases r.vfs.getNode i with
    | none => rfl
    | some n => simp
  have hwrites := rebuildTreeRecursive_commits _ _ _ _ _ _ hv₁ hrec
  have hpop := rebuildTreeRecursive_populates hg.parsedTrees hv₁ hrec
  obtain ⟨raw, below, hcommitted, hroot, hadds, hdeep⟩ := hwrites.tree w (.refl w)
  have htrees : treesOfCommit g r.staging r.vfs =
      committedTrees r.staging dirty w (v₁.nextInode + 1) rootInode := by
    unfold treesOfCommit
    rw [hblobs]
    simp only [hdirty, hrec]
  rw [htrees] at hnames
  rw [← hcommitted] at hadds
  have hobject {k : Str} {obj : GitObjectToPack} (hk : objs'.lookup k = some obj) : obj.oid = k ∧
      (obj.objType = .tree → obj.data ∈ committedTrees r.staging dirty w (v₁.nextInode + 1) rootInode ∧
        obj.oid = computeGitSha1 .tree obj.data) := by
    rcases hadds.only k obj hk with hold | ⟨raw', hraw', rfl, rfl⟩
    · obtain ⟨hblob, hoid⟩ := (hkinds k obj hold).resolve_left (by simp)
      exact ⟨hoid, fun htree => by rw [hblob] at htree; cases htree⟩
    · exact ⟨rfl, fun _ => ⟨hraw', rfl⟩⟩
  have hamong : TreesAmong (committedTrees r.staging dirty w (v₁.nextInode + 1) rootInode) rebuilt.objects := by
    intro obj hobj htype
    rw [hobjects] at hobj
    rcases mem_values_insert.mp hobj with rfl | ⟨k, -, hk⟩
    · simp at htype
    · exact (hobject hk).2 htype
  have hkeep : ∀ oid t, g.getTree oid = some t →
      (g.applyRecoveredObjects dirLen rebuilt.commitOid rebuilt.rootTreeOid rebuilt.objects).getTree oid = some t :=
    fun oid t ht => applied_keeps hnames hamong ht
  have hwritten := h.writtenFrom hg hclosed hstamped htidy
    (fun i hi n hn hname => stagedBlobs_contents hblobs hi hn hname) (h.dirty_meets hfiles hsamewalk).1 hpop
    hwrites.updates hwrites.later hkeep
  have hholds : (g.applyRecoveredObjects dirLen rebuilt.commitOid rebuilt.rootTreeOid rebuilt.objects).HoldsTrees
      (committedTrees r.staging dirty w (v₁.nextInode + 1) rootInode) := by
    intro raw' hraw'
    obtain ⟨t, ht⟩ := committedTrees_parse hwritten.tidy.wellFormed
      (fun i n hn hroot => (hwritten.tidy.each i n hn hroot).entrant) _ _ raw' hraw'
    refine ⟨t, applied_tree ht (hnames.packed raw' hraw') ?_, ht⟩
    rcases hadds.packs raw' hraw' with hpacked | ⟨t', ht'⟩
    · right
      rw [hobjects]
      by_cases hcommit : computeGitSha1 .tree raw' = rebuilt.commitOid
      · exact ⟨_, mem_values_insert.mpr (.inl rfl), hcommit.symm⟩
      · obtain ⟨obj, hobj⟩ := Option.isSome_iff_exists.mp (AList.lookup_isSome.mpr hpacked)
        exact ⟨obj, mem_values_insert.mpr (.inr ⟨_, hcommit, hobj⟩), (hobject hobj).1⟩
    · left
      have hparse := hnames.loaded raw' hraw' t' ht'
      rw [ht, Except.ok.injEq] at hparse
      exact hparse ▸ ht'
  refine ⟨dirty, v₁, w, hstamped, hsamewalk, hv₁, hpop, hwrites.later, hwritten,
    rebuildTreeRecursive_listed hg.parsedTrees hv₁ hrec, fun path hpath => ?_⟩
  have hwrite := hwritten.fileIn_written hdeep hholds hpath
  rw [hcommitted, List.headD_cons, ← hroot] at hwrite
  rw [fileAt_new, hwrite]

theorem CommitOf.listed {g' : GitEngine} {rootOid : Str} (hc : CommitOf g r g' rootOid dirty v₁ w) (h : r.Ready g)
    (hfiles : StagedFiles r.staging r.vfs) {d : Nat} (hd : d ∈ dirty) : ∃ ids, w.dirChildren d = some ids := by
  by_cases hroot : d = rootInode
  · exact hroot ▸ hc.root
  · obtain ⟨-, hmeets, -⟩ := h.dirty_meets hfiles hc.dirtied
    obtain ⟨-, hlist⟩ := hmeets d hd
    obtain ⟨cs, hcs⟩ := hlist hroot
    exact ⟨cs, hc.later.lists d cs (by rw [hc.stamped.lists, hcs])⟩

/-- A commit of what a replay left behind shows, to a server that starts from it, what the replay shows. -/
theorem rebuildGitObjects_shows (hg : g.CanonicalTrees) (hclosed : g.ClosedTrees) (h : r.Ready g)
    (hfiles : StagedFiles r.staging r.vfs) (hclean : r.CleanUndisturbed g)
    (hrebuild : rebuildGitObjects r.vfs r.staging g base author message timestamp = some (.ok rebuilt))
    (hnames : Collisionless g (treesOfCommit g r.staging r.vfs) rebuilt.objects) (dirLen : Option Nat)
    {path : List Str} (hpath : PlainPath path) :
    VfsManager.fileAt (g.applyRecoveredObjects dirLen rebuilt.commitOid rebuilt.rootTreeOid rebuilt.objects)
      (VfsManager.new rebuilt.rootTreeOid) path = r.fileAt g path := by
  obtain ⟨dirty, v₁, w, hc⟩ := rebuildGitObjects_commits hg hclosed h hfiles hrebuild hnames dirLen
  have hstamped := hc.stamped
  have hv := h.tidy.wellFormed
  obtain ⟨hrootDirty, hmeets, hup, habove⟩ := h.dirty_meets hfiles hc.dirtied
  have hshows := hclean dirty hc.dirtied
  -- a node of a clean directory is not staged
  have hsame {d i : Nat} {name : Str} (hd : d ∉ dirty) (hlive : r.vfs.liveChild d name = some i) :
      v₁.nodes i = r.vfs.nodes i := by
    obtain ⟨c, hc, hparent, -⟩ := liveChild_facts hv hlive
    rw [hstamped.nodes, (getNode_eq_some.mp hc).1, Option.map_some, stampedNode, if_neg]
    rintro ⟨hi, -⟩
    exact hd (hparent ▸ habove i hi c hc)
  have hundisturbed : Undisturbed g v₁ dirty := by
    intro path d n ids hplace hn hids hd
    rw [hstamped.placeAt] at hplace
    rw [hstamped.lists] at hids
    obtain ⟨-, ⟨m, hm, hmdir⟩, -⟩ := hv.listed d ids hids
    rw [hstamped.dir hm hmdir, Option.some.injEq] at hn
    subst hn
    obtain ⟨hentry, hchild⟩ := hshows path d m ids hplace hm hids hd
    constructor
    · intro name e he
      obtain ⟨i, c, hlive, hc, hrest⟩ := hentry name e he
      exact ⟨i, c, (hstamped.liveChild d name).trans hlive, (hsame hd hlive).trans hc, hrest⟩
    · intro name i c hlive hc hne
      rw [hstamped.liveChild] at hlive
      exact hchild name i c hlive ((hsame hd hlive).symm.trans hc) hne
  have hclosedUp : ClosedUp w dirty := by
    intro d hd hroot n hn
    obtain ⟨⟨m, hm⟩, -⟩ := hmeets d hd
    have hm₁ : v₁.nodes d = some _ := (hstamped.nodes d).trans (congrArg _ hm)
    rw [hc.later.getNode hm₁] at hn
    obtain ⟨m', hm', rfl⟩ := hstamped.back hn
    rw [stampedNode_parentId]
    exact hup d hd hroot m' hm'
  obtain ⟨n, hn, hdir, -⟩ := hc.populates.wellFormed.root
  obtain ⟨ids, hids⟩ := hc.root
  have hhere : placeAt g w [] = some (.node rootInode) := rfl
  rw [hc.shows path hpath, committedFile_undisturbed hc.populates.wellFormed hc.written.noEntries hclosedUp
    (hc.populates.undisturbed hundisturbed) hc.written.stamped (fun d hd _ => hc.listed h hfiles hd) hpath hhere hn hdir
    hids, ← hstamped.fileAt hv hpath]
  exact hc.populates.sameTree.fileAt hc.wellFormed path

end

end GitNfs
