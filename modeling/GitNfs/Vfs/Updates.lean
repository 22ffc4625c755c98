import GitNfs.Vfs.Consistent

/-! # Updates of the tables

The few ways in which an operation changes the tables, each written out in full, and the invariants that hang
on the data of the nodes.
-/

namespace GitNfs

namespace VfsManager

/-- The names and modes that nodes are given, and whether a directory may be made over a name that is taken. -/
structure Limits where
  name : Str → Prop
  mode : TreeEntryMode → Prop
  shadow : Prop

inductive Update (lim : Limits) (g : GitEngine) (v : VfsManager) : VfsManager → Prop
  | populate {d : Nat} {dir : VfsNode} (hd : v.dirChildren d = none) (hdir : v.nodes d = some dir)
      (hisDir : dir.isDir = true) : Update lim g v (v.populate g d dir.oid)
  | revive {d : Nat} {name : Str} {i : Nat} {n : VfsNode} (hi : v.childMap (d, name) = some i)
      (hn : v.nodes i = some n) :
      Update lim g v (v.modifyNode i fun node => { node with isDeleted := false, size := 0 })
  | file {d : Nat} {name : Str} {mode : TreeEntryMode} {ids : List Nat} (hids : v.dirChildren d = some ids)
      (hname : lim.name name) (hmode : lim.mode mode) (hfree : v.childMap (d, name) = none) :
      Update lim g v (v.addNode ⟨v.nextInode, d, name, [], mode, false, 0, false⟩)
  | dir {d : Nat} {name : Str} {ids : List Nat} (hids : v.dirChildren d = some ids) (hname : lim.name name)
      (hfree : lim.shadow ∨ v.liveChild d name = none) :
      Update lim g v
        ((v.addNode ⟨v.nextInode, d, name, [], .directory, true, 4096, false⟩).setDirChildren v.nextInode [])
  | remove {d : Nat} {name : Str} {i : Nat} {n : VfsNode} {ids : List Nat} (hids : v.dirChildren d = some ids)
      (hi : v.childMap (d, name) = some i) (hn : v.nodes i = some n) :
      Update lim g v (((v.modifyNode i kill).dropChild d i).setChild d name none)
  | rename {fromDirId : Nat} {fromName : Str} {toDirId : Nat} {toName : Str} {i : Nat} {n : VfsNode}
      {ids : List Nat} (hids : v.dirChildren toDirId = some ids) (hi : v.childMap (fromDirId, fromName) = some i)
      (hn : v.nodes i = some n) (hname : lim.name toName) :
      Update lim g v ((((v.remove g toDirId toName).2.dropChild fromDirId i).setChild fromDirId fromName
        none).attach i toDirId toName)
  | resize (i size : Nat) : Update lim g v (v.updateFileSize i size)

/-- Updates of well-formed tables, one after the other. -/
def Updates (lim : Limits) (g : GitEngine) : VfsManager → VfsManager → Prop :=
  Relation.ReflTransGen fun v v' => v.WellFormed ∧ Update lim g v v'

variable {lim : Limits} {g : GitEngine} {v v' : VfsManager}

theorem Updates.one (hv : v.WellFormed) (h : Update lim g v v') : Updates lim g v v' := .single ⟨hv, h⟩

theorem Updates.keeps {I : VfsManager → Prop}
    (hI : ∀ v v', v.WellFormed → Update lim g v v' → I v → I v') (h : Updates lim g v v') (hv : I v) : I v' := by
  induction h with
  | refl => exact hv
  | tail _ hlast ih => exact hI _ _ hlast.1 hlast.2 ih

theorem Update.wellFormed (hv : v.WellFormed) (h : Update lim g v v') : v'.WellFormed := by
  cases h with
  | populate hd hdir hisDir => exact hv.populate hd hdir hisDir _
  | revive hi hn =>
    obtain ⟨-, -, -, -, hroot⟩ := mapped_node hv hi
    exact hv.modifyNode _ _ (fun _ => ⟨rfl, rfl, rfl, rfl⟩) fun h => absurd h hroot
  | file hids hname hmode hfree => exact hv.addNode rfl hids
  | @dir d name ids hids hname hfree =>
    have hmade := hv.mkdir (g := g) d name
    unfold mkdir at hmade
    rwa [ensureDirPopulated_listed hids] at hmade
  | @remove d name i n ids hids hi hn =>
    have hgone := hv.remove (g := g) d name
    unfold VfsManager.remove at hgone
    rw [ensureDirPopulated_listed hids] at hgone
    simp only [hi, hn] at hgone
    exact hgone
  | @rename fd fn td tn i n ids hids hi hn hname =>
    obtain ⟨-, ids', hids', -⟩ := hv.child fd fn i hi
    have hmoved := hv.rename (g := g) fd fn td tn
    unfold VfsManager.rename at hmoved
    rw [ensureDirPopulated_listed hids'] at hmoved
    simp only at hmoved
    rw [ensureDirPopulated_listed hids] at hmoved
    simp only [hi, hn] at hmoved
    exact hmoved
  | resize i size => exact hv.updateFileSize i size

theorem Updates.wellFormed (hv : v.WellFormed) (h : Updates lim g v v') : v'.WellFormed :=
  h.keeps (fun _ _ hw hupdate _ => hupdate.wellFormed hw) hv

/-! ## Every operation is a sequence of updates -/

theorem ensureDirPopulated_updates (hv : v.WellFormed) (d : Nat) : Updates lim g v (v.ensureDirPopulated g d).2 := by
  obtain ⟨ids, -, h⟩ | ⟨dir, hd, hdir, hisDir, h⟩ | ⟨e, h⟩ := ensureDirPopulated_cases g v d <;> rw [h]
  · exact .refl
  · exact .one hv (.populate hd hdir hisDir)
  · exact .refl

theorem lookup_updates (hv : v.WellFormed) (d : Nat) (name : Str) : Updates lim g v (v.lookup g d name).2 := by
  have hpop : Updates lim g v (v.ensureDirPopulated g d).2 := ensureDirPopulated_updates hv d
  unfold lookup
  split_ifs
  · exact .refl
  · split <;> exact .refl
  · split
    · exact .refl
    · split
      · rename_i h
        rwa [h] at hpop
      · rename_i h
        rw [h] at hpop
        split <;> exact hpop

theorem listDir_updates (hv : v.WellFormed) (d : Nat) : Updates lim g v (v.listDir g d).2 := by
  have hpop : Updates lim g v (v.ensureDirPopulated g d).2 := ensureDirPopulated_updates hv d
  unfold listDir
  split
  · rename_i h
    rwa [h] at hpop
  · rename_i h
    rwa [h] at hpop

theorem createFile_updates (hv : v.WellFormed) (d : Nat) {name : Str} {mode : TreeEntryMode} (hname : lim.name name)
    (hmode : lim.mode mode) : Updates lim g v (v.createFile g d name mode).2 := by
  have hpop : Updates lim g v (v.ensureDirPopulated g d).2 := ensureDirPopulated_updates hv d
  unfold createFile
  split
  · rename_i h
    rwa [h] at hpop
  · rename_i v₁ h
    rw [h] at hpop
    obtain ⟨hv₁, ids, hids⟩ := hv.ensureDirPopulated_ok h
    split
    · rename_i i node hi
      obtain ⟨j, hj, hnode⟩ := Option.bind_eq_some_iff.mp hi
      obtain ⟨n, hn, heq⟩ := Option.map_eq_some_iff.mp hnode
      simp only [Prod.mk.injEq] at heq
      obtain ⟨rfl, rfl⟩ := heq
      exact hpop.tail ⟨hv₁, .revive hj hn⟩
    · rename_i hnone
      have hfree : v₁.childMap (d, name) = none := by
        cases hi : v₁.childMap (d, name) with
        | none => rfl
        | some i =>
          obtain ⟨n, hn, -⟩ := mapped_node hv₁ hi
          simp [hi, hn] at hnone
      exact hpop.tail ⟨hv₁, .file hids hname hmode hfree⟩

theorem mkdir_updates (hv : v.WellFormed) (d : Nat) {name : Str} (hname : lim.name name)
    (hfree : lim.shadow ∨ (v.ensureDirPopulated g d).2.liveChild d name = none) :
    Updates lim g v (v.mkdir g d name).2 := by
  have hpop : Updates lim g v (v.ensureDirPopulated g d).2 := ensureDirPopulated_updates hv d
  unfold mkdir
  split
  · rename_i h
    rwa [h] at hpop
  · rename_i v₁ h
    rw [h] at hpop hfree
    obtain ⟨hv₁, ids, hids⟩ := hv.ensureDirPopulated_ok h
    exact hpop.tail ⟨hv₁, .dir hids hname hfree⟩

theorem remove_updates (hv : v.WellFormed) (d : Nat) (name : Str) : Updates lim g v (v.remove g d name).2 := by
  have hpop : Updates lim g v (v.ensureDirPopulated g d).2 := ensureDirPopulated_updates hv d
  obtain ⟨e, -, h⟩ | ⟨v₁, i, n, hok, hi, hn, h⟩ := remove_cases g v d name
  · rwa [h]
  · rw [hok] at hpop
    obtain ⟨hv₁, ids, hids⟩ := hv.ensureDirPopulated_ok hok
    rw [h]
    exact hpop.tail ⟨hv₁, .remove hids hi hn⟩

theorem rename_updates (hv : v.WellFormed) (fromDirId : Nat) (fromName : Str) (toDirId : Nat) {toName : Str}
    (hname : lim.name toName) : Updates lim g v (v.rename g fromDirId fromName toDirId toName).2 := by
  have hfrom : Updates lim g v (v.ensureDirPopulated g fromDirId).2 := ensureDirPopulated_updates hv fromDirId
  have hto : Updates lim g (v.ensureDirPopulated g fromDirId).2
      ((v.ensureDirPopulated g fromDirId).2.ensureDirPopulated g toDirId).2 :=
    ensureDirPopulated_updates (hv.ensureDirPopulated fromDirId) toDirId
  obtain ⟨e, -, h | h⟩ | ⟨v₁, v₂, i, n, h₁, h₂, hi, hn, h⟩ := rename_cases g v fromDirId fromName toDirId toName
  · rwa [h]
  · rw [h]
    exact hfrom.trans hto
  · rw [h₁] at hfrom hto
    rw [h₂] at hto
    obtain ⟨hv₁, -⟩ := hv.ensureDirPopulated_ok h₁
    obtain ⟨hv₂, ids, hids⟩ := hv₁.ensureDirPopulated_ok h₂
    rw [h]
    exact (hfrom.trans hto).tail ⟨hv₂, .rename hids hi hn hname⟩

theorem lookupParts_updates (hv : v.WellFormed) (curr : Nat) (parts : List Str) :
    Updates lim g v (v.lookupParts g curr parts).2 := by
  induction parts generalizing v curr with
  | nil => exact .refl
  | cons part parts ih =>
    rw [lookupParts]
    split_ifs
    · exact ih hv curr
    · have hlookup : Updates lim g v (v.lookup g curr part).2 := lookup_updates hv curr part
      have hv' := hv.lookup (g := g) curr part
      split
      · rename_i h
        rwa [h] at hlookup
      · rename_i id v₁ h
        rw [h] at hlookup hv'
        exact hlookup.trans (ih hv' id)

theorem lookupPath_updates (hv : v.WellFormed) (path : Str) : Updates lim g v (v.lookupPath g path).2 := by
  unfold lookupPath
  simp only
  split_ifs
  · exact .refl
  · exact lookupParts_updates hv _ _

theorem ensureDirs_updates (hv : v.WellFormed) (curr : Nat) {parts : List Str}
    (hnames : ∀ part ∈ parts, lim.name part) : Updates lim g v (v.ensureDirs g curr parts).2 := by
  induction parts generalizing v curr with
  | nil => exact .refl
  | cons part parts ih =>
    have hlookup : Updates lim g v (v.lookup g curr part).2 := lookup_updates hv curr part
    have hv' := hv.lookup (g := g) curr part
    have hrest := fun part hpart => hnames part (List.mem_cons_of_mem _ hpart)
    rw [ensureDirs]
    split
    · rename_i id v₁ h
      rw [h] at hlookup hv'
      exact hlookup.trans (ih hv' id hrest)
    · rename_i e v₁ h
      rw [h] at hlookup hv'
      have hmade : Updates lim g v₁ (v₁.mkdir g curr part).2 :=
        mkdir_updates hv' curr (hnames part List.mem_cons_self) (.inr (lookup_error hv h))
      have hv'' := hv'.mkdir (g := g) curr part
      split
      · rename_i h'
        rw [h'] at hmade
        exact hlookup.trans hmade
      · rename_i node v₂ h'
        rw [h'] at hmade hv''
        exact (hlookup.trans hmade).trans (ih hv'' node.id hrest)

theorem ensureParentDirs_updates (hv : v.WellFormed) {path : Str}
    (hnames : ∀ part ∈ components (trimMatches '/' path), lim.name part) :
    Updates lim g v (v.ensureParentDirs g path).2 ∧
      ∀ d name, (v.ensureParentDirs g path).1 = .ok (d, name) → lim.name name := by
  have hdirs : Updates lim g v (v.ensureDirs g rootInode (components (trimMatches '/' path)).dropLast).2 :=
    ensureDirs_updates hv rootInode fun part hpart => hnames part (List.dropLast_subset _ hpart)
  unfold ensureParentDirs
  simp only
  split
  · exact ⟨.refl, fun _ _ h => by simp at h⟩
  · rename_i basename hlast
    have hbase := hnames basename (List.mem_of_getLast? hlast)
    split
    · rename_i h
      rw [h] at hdirs
      exact ⟨hdirs, fun _ _ h => by simp at h⟩
    · rename_i h
      rw [h] at hdirs
      refine ⟨hdirs, fun d name heq => ?_⟩
      simp only [Except.ok.injEq, Prod.mk.injEq] at heq
      exact heq.2 ▸ hbase

/-! ## Names and nodes -/

theorem Update.change (hv : v.WellFormed) (h : Update lim g v v') :
    Change ⟨lim.shadow, True, lim.name, fun _ _ _ _ => True⟩ g v v' ∨ ∃ i size, v' = v.updateFileSize i size := by
  cases h with
  | populate hd hdir hisDir => exact .inl (.populate hd hdir hisDir)
  | revive hi hn =>
    refine .inl (.revive trivial hi hn rfl fun j => ?_)
    rw [modifyNode_nodes, hn]
    rfl
  | file hids hname hmode hfree =>
    exact .inl (.add rfl rfl (.inl trivial) ⟨_, hids⟩ hname (.inr (liveChild_of_unmapped hfree))
      (fun k => insertNode_childMap _ _ k) fun j => insertNode_nodes _ _ j)
  | dir hids hname hfree =>
    exact .inl (.add rfl rfl (.inr rfl) ⟨_, hids⟩ hname hfree (fun k => insertNode_childMap _ _ k)
      fun j => insertNode_nodes _ _ j)
  | remove hids hi hn =>
    refine .inl (.remove hi (fun k => ?_) fun j => ?_)
    · rw [setChild_childMap, dropChild_childMap, modifyNode_childMap]
    · rw [setChild_nodes, dropChild_nodes, modifyNode_nodes]
  | @rename fd fn td tn i n ids hids hi hn hname =>
    obtain ⟨hmap, hnodes⟩ := attach_tables (g := g) (fd, fn) (td, tn) hv hids hi hn
    exact .inl (.move hi hn ⟨ids, hids⟩ hname trivial hmap hnodes)
  | resize i size => exact .inr ⟨i, size, rfl⟩

/-- A live node stands under its name, whatever size it has. -/
theorem Attached.modify (h : v.Attached) (i : Nat) (f : VfsNode → VfsNode)
    (hf : ∀ n, (f n).parentId = n.parentId ∧ (f n).name = n.name ∧ (f n).isDeleted = n.isDeleted) :
    (v.modifyNode i f).Attached := by
  intro j m hm hlive hroot
  rw [modifyNode_nodes] at hm
  split_ifs at hm with hj
  · obtain ⟨n, hn, rfl⟩ := Option.map_eq_some_iff.mp hm
    rw [modifyNode_childMap, (hf n).1, (hf n).2.1]
    exact h j n (hj ▸ hn) ((hf n).2.2 ▸ hlive) hroot
  · exact h j m hm hlive hroot

theorem Attached.update (hshadow : ¬ lim.shadow) (hg : g.DistinctNames) (hv : v.WellFormed) (h : v.Attached)
    (hupdate : Update lim g v v') : v'.Attached := by
  rcases hupdate.change hv with hchange | ⟨i, size, rfl⟩
  · exact h.change hshadow hg hv hchange
  · exact h.modify i _ fun _ => ⟨rfl, rfl, rfl⟩

/-- The live nodes of a list have different names. -/
theorem Attached.names_nodup (h : v.Attached) (hv : v.WellFormed) {d : Nat} {ids : List Nat}
    (hids : v.dirChildren d = some ids) : ((ids.filterMap v.getNode).map (·.name)).Nodup := by
  obtain ⟨hnodup, -, hlist⟩ := hv.listed d ids hids
  have hmapped {i : Nat} (hi : i ∈ ids) {n : VfsNode} (hn : v.getNode i = some n) :
      n.id = i ∧ v.childMap (d, n.name) = some i := by
    obtain ⟨hnode, hlive⟩ := getNode_eq_some.mp hn
    obtain ⟨m, hroot, hm, hp⟩ := hlist i hi
    rw [hnode, Option.some.injEq] at hm
    subst hm
    exact ⟨hv.id_eq i n hnode, hp ▸ h i n hnode hlive hroot⟩
  apply List.Nodup.map_on
  · intro n hn m hm hname
    obtain ⟨i, hi, hni⟩ := List.mem_filterMap.mp hn
    obtain ⟨j, hj, hmj⟩ := List.mem_filterMap.mp hm
    have hfind := (hmapped hi hni).2
    rw [hname, (hmapped hj hmj).2, Option.some.injEq] at hfind
    subst hfind
    exact Option.some.inj (hni.symm.trans hmj)
  · exact hnodup.filterMap fun i j n hi hj =>
      ((hv.id_eq i n (getNode_eq_some.mp hi).1).symm.trans (hv.id_eq j n (getNode_eq_some.mp hj).1))

/-! ## What holds of the data of every node -/

/-- Every node but the root has the property. -/
def Each (P : VfsNode → Prop) (v : VfsManager) : Prop := ∀ i n, v.nodes i = some n → i ≠ rootInode → P n

/-- A property of nodes that populating and the operations keep. -/
structure Holds (lim : Limits) (g : GitEngine) (P : VfsNode → Prop) : Prop where
  entry : ∀ oid, ∀ e ∈ treeEntries g oid, ∀ d i, P (entryNode g d i e)
  file : ∀ i d name mode, lim.name name → lim.mode mode → P ⟨i, d, name, [], mode, false, 0, false⟩
  dir : ∀ i d name, lim.name name → P ⟨i, d, name, [], .directory, true, 4096, false⟩
  state : ∀ n : VfsNode, P n → ∀ isDeleted size, P { n with isDeleted := isDeleted, size := size }
  place : ∀ n : VfsNode, P n → ∀ d name, lim.name name → P { n with parentId := d, name := name }

variable {P : VfsNode → Prop}

theorem Each.new (rootOid : Str) : (VfsManager.new rootOid).Each P := by
  intro i n hn hroot
  simp [VfsManager.new, hroot] at hn

theorem Each.modify (h : v.Each P) (i : Nat) {f : VfsNode → VfsNode} (hf : ∀ n, P n → P (f n)) :
    (v.modifyNode i f).Each P := by
  intro j m hm hroot
  rw [modifyNode_nodes] at hm
  split_ifs at hm with hj
  · obtain ⟨n, hn, rfl⟩ := Option.map_eq_some_iff.mp hm
    exact hf n (h i n hn (hj ▸ hroot))
  · exact h j m hm hroot

theorem Each.insert (h : v.Each P) {n : VfsNode} (hn : P n) : (v.insertNode n).Each P := by
  intro j m hm hroot
  rw [insertNode_nodes] at hm
  split_ifs at hm
  · exact Option.some.inj hm ▸ hn
  · exact h j m hm hroot

theorem Each.update (hP : Holds lim g P) (hv : v.WellFormed) (h : v.Each P) (hupdate : Update lim g v v') :
    v'.Each P := by
  cases hupdate with
  | @populate d dir hd hdir hisDir =>
    intro j m hm hroot
    rcases populate_nodes_cases hv hd hm with hold | ⟨k, e, he, -, rfl⟩
    · exact h j m hold hroot
    · exact hP.entry _ e (List.mem_of_getElem? he) _ _
  | revive hi hn => exact h.modify _ fun n hn => hP.state n hn _ _
  | file hids hname hmode hfree => exact h.insert (hP.file _ _ _ _ hname hmode)
  | dir hids hname hfree => exact h.insert (hP.dir _ _ _ hname)
  | remove hids hi hn => exact h.modify _ fun n hn => hP.state n hn _ _
  | @rename fd fn td tn i n ids hids hi hn hname =>
    have hremoved : (v.remove g td tn).2.Each P := by
      rcases remove_listed (g := g) hids tn with heq | ⟨j, n', -, -, heq⟩
      · rwa [heq]
      · rw [heq]
        exact h.modify _ fun n hn => hP.state n hn _ _
    have hmoved : (((v.remove g td tn).2.dropChild fd i).setChild fd fn none).Each P := hremoved
    exact hmoved.modify i fun n hn => hP.place n hn td tn hname
  | resize i size => exact h.modify i fun n hn => hP.state n hn _ _

end VfsManager

end GitNfs
