import GitNfs.Vfs.Inode

/-! # What holds of the tables of the inodes

The three tables of a `VfsManager` agree with each other in every state that its operations reach,
whatever they are called with.
-/

namespace GitNfs

namespace VfsManager

/-! ## The tables after one update -/

section Tables

variable (v : VfsManager)

@[simp] theorem insertNode_nodes (n : VfsNode) (j : Nat) :
    (v.insertNode n).nodes j = if j = n.id then some n else v.nodes j := Function.update_apply _ _ _ _

@[simp] theorem insertNode_childMap (n : VfsNode) (k : Nat × Str) :
    (v.insertNode n).childMap k = if k = (n.parentId, n.name) then some n.id else v.childMap k :=
  Function.update_apply _ _ _ _

@[simp] theorem insertNode_dirChildren (n : VfsNode) : (v.insertNode n).dirChildren = v.dirChildren := rfl
@[simp] theorem insertNode_nextInode (n : VfsNode) : (v.insertNode n).nextInode = v.nextInode := rfl

@[simp] theorem setDirChildren_nodes (d : Nat) (ids : List Nat) :
    (v.setDirChildren d ids).nodes = v.nodes := rfl
@[simp] theorem setDirChildren_childMap (d : Nat) (ids : List Nat) :
    (v.setDirChildren d ids).childMap = v.childMap := rfl
@[simp] theorem setDirChildren_nextInode (d : Nat) (ids : List Nat) :
    (v.setDirChildren d ids).nextInode = v.nextInode := rfl

@[simp] theorem setDirChildren_dirChildren (d : Nat) (ids : List Nat) (j : Nat) :
    (v.setDirChildren d ids).dirChildren j = if j = d then some ids else v.dirChildren j :=
  Function.update_apply _ _ _ _

@[simp] theorem modifyNode_nodes (i : Nat) (f : VfsNode → VfsNode) (j : Nat) :
    (v.modifyNode i f).nodes j = if j = i then (v.nodes i).map f else v.nodes j :=
  Function.update_apply _ _ _ _

@[simp] theorem modifyNode_childMap (i : Nat) (f : VfsNode → VfsNode) :
    (v.modifyNode i f).childMap = v.childMap := rfl
@[simp] theorem modifyNode_dirChildren (i : Nat) (f : VfsNode → VfsNode) :
    (v.modifyNode i f).dirChildren = v.dirChildren := rfl
@[simp] theorem modifyNode_nextInode (i : Nat) (f : VfsNode → VfsNode) :
    (v.modifyNode i f).nextInode = v.nextInode := rfl

@[simp] theorem pushChild_nodes (d i : Nat) : (v.pushChild d i).nodes = v.nodes := rfl
@[simp] theorem pushChild_childMap (d i : Nat) : (v.pushChild d i).childMap = v.childMap := rfl
@[simp] theorem pushChild_nextInode (d i : Nat) : (v.pushChild d i).nextInode = v.nextInode := rfl

@[simp] theorem pushChild_dirChildren (d i j : Nat) :
    (v.pushChild d i).dirChildren j =
      if j = d then some ((v.dirChildren d).getD [] ++ [i]) else v.dirChildren j :=
  Function.update_apply _ _ _ _

@[simp] theorem dropChild_nodes (d i : Nat) : (v.dropChild d i).nodes = v.nodes := rfl
@[simp] theorem dropChild_childMap (d i : Nat) : (v.dropChild d i).childMap = v.childMap := rfl
@[simp] theorem dropChild_nextInode (d i : Nat) : (v.dropChild d i).nextInode = v.nextInode := rfl

@[simp] theorem dropChild_dirChildren (d i j : Nat) :
    (v.dropChild d i).dirChildren j =
      if j = d then (v.dirChildren d).map fun ids => ids.filter fun childId => childId ≠ i
      else v.dirChildren j :=
  Function.update_apply _ _ _ _

@[simp] theorem setChild_nodes (d : Nat) (name : Str) (i : Option Nat) :
    (v.setChild d name i).nodes = v.nodes := rfl
@[simp] theorem setChild_dirChildren (d : Nat) (name : Str) (i : Option Nat) :
    (v.setChild d name i).dirChildren = v.dirChildren := rfl
@[simp] theorem setChild_nextInode (d : Nat) (name : Str) (i : Option Nat) :
    (v.setChild d name i).nextInode = v.nextInode := rfl

@[simp] theorem setChild_childMap (d : Nat) (name : Str) (i : Option Nat) (k : Nat × Str) :
    (v.setChild d name i).childMap k = if k = (d, name) then i else v.childMap k :=
  Function.update_apply _ _ _ _

end Tables

/-! ## Well-formed tables -/

/-- A node that is in the tables under a directory: not the root, and of that parent. -/
def ChildOf (v : VfsManager) (d i : Nat) (n : VfsNode) : Prop :=
  i ≠ rootInode ∧ v.nodes i = some n ∧ n.parentId = d

structure WellFormed (v : VfsManager) : Prop where
  id_eq : ∀ i n, v.nodes i = some n → n.id = i
  fresh : ∀ i n, v.nodes i = some n → i < v.nextInode
  root : ∃ n, v.nodes rootInode = some n ∧ n.isDir = true ∧ n.isDeleted = false ∧ n.parentId = rootInode
  parent : ∀ i n, v.nodes i = some n → ∃ p, v.nodes n.parentId = some p ∧ p.isDir = true
  /-- What a name leads to has that name, and stands in the list of its directory. -/
  child : ∀ d name i, v.childMap (d, name) = some i →
    (∃ n, v.ChildOf d i n ∧ n.name = name) ∧ ∃ ids, v.dirChildren d = some ids ∧ i ∈ ids
  listed : ∀ d ids, v.dirChildren d = some ids →
    ids.Nodup ∧ (∃ n, v.nodes d = some n ∧ n.isDir = true) ∧ ∀ i ∈ ids, ∃ n, v.ChildOf d i n

variable {v : VfsManager} {g : GitEngine}

namespace WellFormed

theorem new (rootOid : Str) : (VfsManager.new rootOid).WellFormed := by
  have hnodes : ∀ i n, (VfsManager.new rootOid).nodes i = some n →
      i = rootInode ∧ n = ⟨rootInode, rootInode, ['/'], rootOid, .directory, true, 4096, false⟩ := by
    intro i n h
    simp only [VfsManager.new, Function.update_apply] at h
    split_ifs at h with hi
    exact ⟨hi, (Option.some.inj h).symm⟩
  have hroot : (VfsManager.new rootOid).nodes rootInode =
      some ⟨rootInode, rootInode, ['/'], rootOid, .directory, true, 4096, false⟩ := by
    simp [VfsManager.new]
  refine ⟨?_, ?_, ⟨_, hroot, rfl, rfl, rfl⟩, ?_, ?_, ?_⟩
  · intro i n h
    obtain ⟨rfl, rfl⟩ := hnodes i n h
    rfl
  · intro i n h
    obtain ⟨rfl, rfl⟩ := hnodes i n h
    exact Nat.one_lt_two
  · intro i n h
    obtain ⟨rfl, rfl⟩ := hnodes i n h
    exact ⟨_, hroot, rfl⟩
  · intro d name i h
    simp [VfsManager.new] at h
  · intro d ids h
    simp [VfsManager.new] at h

theorem unmapped (h : v.WellFormed) {d : Nat} (hd : v.dirChildren d = none) (name : Str) :
    v.childMap (d, name) = none := by
  by_contra hne
  obtain ⟨i, hi⟩ := Option.ne_none_iff_exists'.mp hne
  obtain ⟨-, ids, hids, -⟩ := h.child d name i hi
  simp [hd] at hids

theorem unlisted (h : v.WellFormed) {i : Nat} (hi : v.nextInode ≤ i) : v.dirChildren i = none := by
  by_contra hne
  obtain ⟨ids, hids⟩ := Option.ne_none_iff_exists'.mp hne
  obtain ⟨-, ⟨n, hn, -⟩, -⟩ := h.listed i ids hids
  have := h.fresh i n hn
  omega

theorem not_node (h : v.WellFormed) {i : Nat} (hi : v.nextInode ≤ i) : v.nodes i = none := by
  by_contra hne
  obtain ⟨n, hn⟩ := Option.ne_none_iff_exists'.mp hne
  have := h.fresh i n hn
  omega

end WellFormed

/-! ## Populating -/

/-- The nodes that a directory without children makes of its entries. -/
def entryNodes (g : GitEngine) (dirId : Nat) : List GitTreeEntry → Nat → List VfsNode
  | [], _ => []
  | e :: es, next => entryNode g dirId next e :: entryNodes g dirId es (next + 1)

theorem populateEntries_unmapped {d : Nat} (h : ∀ name, v.childMap (d, name) = none)
    (es : List GitTreeEntry) (next : Nat) :
    populateEntries g v d es next =
      (List.range' next es.length, entryNodes g d es next, next + es.length) := by
  induction es generalizing next with
  | nil => rfl
  | cons e es ih =>
    simp only [populateEntries, h, ih, entryNodes, List.length_cons, List.range'_succ, Prod.mk.injEq,
      true_and]
    omega

theorem foldl_insertNode_nodes (d : Nat) (es : List GitTreeEntry) (next : Nat) (v : VfsManager) (j : Nat) :
    ((entryNodes g d es next).foldl insertNode v).nodes j =
      if next ≤ j ∧ j < next + es.length then (es[j - next]?).map (entryNode g d j) else v.nodes j := by
  induction es generalizing next v with
  | nil =>
    rw [if_neg (by simp)]
    rfl
  | cons e es ih =>
    rw [entryNodes, List.foldl_cons, ih, List.length_cons]
    rcases Nat.lt_trichotomy j next with h | rfl | h
    · rw [if_neg (by omega), if_neg (by omega), insertNode_nodes]
      exact if_neg (Nat.ne_of_lt h)
    · rw [if_neg (by omega), if_pos (by omega), Nat.sub_self, insertNode_nodes]
      exact if_pos rfl
    · obtain ⟨k, rfl⟩ : ∃ k, j = next + 1 + k := ⟨j - (next + 1), by omega⟩
      have hk : next + 1 + k - next = k + 1 := by omega
      rw [hk, List.getElem?_cons_succ, Nat.add_sub_cancel_left]
      split_ifs with h₁ h₂ h₂
      · rfl
      · omega
      · omega
      · rw [insertNode_nodes]
        exact if_neg (Nat.ne_of_gt h)

/-- A name of the directory leads to the last of its entries with that name. -/
theorem foldl_insertNode_childMap (d : Nat) (es : List GitTreeEntry) (next : Nat) (v : VfsManager)
    (k : Nat × Str) :
    ((entryNodes g d es next).foldl insertNode v).childMap k = v.childMap k ∧
        (k.1 = d → ∀ e ∈ es, e.name ≠ k.2) ∨
      k.1 = d ∧ ∃ i e, es[i]? = some e ∧ e.name = k.2 ∧
        ((entryNodes g d es next).foldl insertNode v).childMap k = some (next + i) := by
  induction es generalizing next v with
  | nil => exact .inl ⟨rfl, by simp⟩
  | cons e es ih =>
    rw [entryNodes, List.foldl_cons]
    rcases ih (next + 1) (v.insertNode (entryNode g d next e)) with ⟨h, hnone⟩ | ⟨hd, i, e', hi, hname, h⟩
    · rw [h, insertNode_childMap]
      split_ifs with hk
      · subst hk
        exact .inr ⟨rfl, 0, e, rfl, rfl, rfl⟩
      · refine .inl ⟨rfl, fun hd e' he' => ?_⟩
        rcases List.mem_cons.mp he' with rfl | he'
        · intro hname
          exact hk (Prod.ext hd hname.symm)
        · exact hnone hd e' he'
    · refine .inr ⟨hd, i + 1, e', by simpa using hi, hname, ?_⟩
      rw [h]
      congr 1
      omega

section Populate

variable {d : Nat} {oid : Str} (h : ∀ name, v.childMap (d, name) = none)

theorem foldl_insertNode_dirChildren (news : List VfsNode) (v : VfsManager) :
    (news.foldl insertNode v).dirChildren = v.dirChildren := by
  induction news generalizing v with
  | nil => rfl
  | cons n news ih => exact ih _

theorem foldl_insertNode_nextInode (news : List VfsNode) (v : VfsManager) :
    (news.foldl insertNode v).nextInode = v.nextInode := by
  induction news generalizing v with
  | nil => rfl
  | cons n news ih => exact ih _

include h

theorem populate_eq :
    v.populate g d oid = ((entryNodes g d (treeEntries g oid) v.nextInode).foldl insertNode
      { v with nextInode := v.nextInode + (treeEntries g oid).length }).setDirChildren d
        (List.range' v.nextInode (treeEntries g oid).length) := by
  rw [populate, populateEntries_unmapped h]

theorem populate_nodes (j : Nat) :
    (v.populate g d oid).nodes j =
      if v.nextInode ≤ j ∧ j < v.nextInode + (treeEntries g oid).length
      then ((treeEntries g oid)[j - v.nextInode]?).map (entryNode g d j) else v.nodes j := by
  rw [populate_eq h]
  exact foldl_insertNode_nodes _ _ _ _ _

theorem populate_dirChildren (j : Nat) :
    (v.populate g d oid).dirChildren j =
      if j = d then some (List.range' v.nextInode (treeEntries g oid).length) else v.dirChildren j := by
  rw [populate_eq h, setDirChildren]
  simp only [foldl_insertNode_dirChildren, Function.update_apply]

theorem populate_nextInode :
    (v.populate g d oid).nextInode = v.nextInode + (treeEntries g oid).length := by
  rw [populate_eq h, setDirChildren]
  exact foldl_insertNode_nextInode _ _

theorem populate_childMap (g : GitEngine) (oid : Str) (k : Nat × Str) :
    (v.populate g d oid).childMap k = v.childMap k ∧
        (k.1 = d → ∀ e ∈ treeEntries g oid, e.name ≠ k.2) ∨
      k.1 = d ∧ ∃ i e, (treeEntries g oid)[i]? = some e ∧ e.name = k.2 ∧
        (v.populate g d oid).childMap k = some (v.nextInode + i) := by
  rw [populate_eq h]
  exact foldl_insertNode_childMap _ _ _ { v with nextInode := _ } k

end Populate

/-- What was a node before is the same node after a directory was populated. -/
theorem populate_nodes_old {d : Nat} {oid : Str} (hv : v.WellFormed) (hd : v.dirChildren d = none)
    {i : Nat} {n : VfsNode} (hn : v.nodes i = some n) : (v.populate g d oid).nodes i = some n := by
  have := hv.fresh i n hn
  rw [populate_nodes (hv.unmapped hd), if_neg (by omega), hn]

theorem populate_nodes_new {d : Nat} {oid : Str} (hv : v.WellFormed) (hd : v.dirChildren d = none)
    {i : Nat} {e : GitTreeEntry} (he : (treeEntries g oid)[i]? = some e) :
    (v.populate g d oid).nodes (v.nextInode + i) = some (entryNode g d (v.nextInode + i) e) := by
  obtain ⟨hi, -⟩ := List.getElem?_eq_some_iff.mp he
  rw [populate_nodes (hv.unmapped hd), if_pos (by omega), Nat.add_sub_cancel_left, he]
  rfl

/-- A node of a populated directory was there before, or it is one of the entries. -/
theorem populate_nodes_cases {d : Nat} {oid : Str} (hv : v.WellFormed) (hd : v.dirChildren d = none)
    {i : Nat} {n : VfsNode} (hn : (v.populate g d oid).nodes i = some n) :
    v.nodes i = some n ∨
      ∃ k e, (treeEntries g oid)[k]? = some e ∧ i = v.nextInode + k ∧ n = entryNode g d i e := by
  rw [populate_nodes (hv.unmapped hd)] at hn
  split_ifs at hn with hi
  · obtain ⟨e, he, rfl⟩ := Option.map_eq_some_iff.mp hn
    exact .inr ⟨_, e, he, by omega, rfl⟩
  · exact .inl hn

namespace WellFormed

theorem populate (hv : v.WellFormed) {d : Nat} {dir : VfsNode} (hd : v.dirChildren d = none)
    (hdir : v.nodes d = some dir) (hisDir : dir.isDir = true) (oid : Str) :
    (v.populate g d oid).WellFormed := by
  have hold {i : Nat} {n : VfsNode} (hn : v.nodes i = some n) : (v.populate g d oid).nodes i = some n :=
    populate_nodes_old hv hd hn
  have hfresh {k : Nat} : v.nextInode + k ≠ rootInode := by
    obtain ⟨n, hn, -⟩ := hv.root
    have := hv.fresh _ n hn
    omega
  refine ⟨fun i n hn => ?_, fun i n hn => ?_, ?_, fun i n hn => ?_, fun d' name i hi => ?_,
    fun d' ids hids => ?_⟩
  · rcases populate_nodes_cases hv hd hn with hn | ⟨k, e, -, -, rfl⟩
    · exact hv.id_eq i n hn
    · rfl
  · rw [populate_nextInode (hv.unmapped hd)]
    rcases populate_nodes_cases hv hd hn with hn | ⟨k, e, he, rfl, -⟩
    · have := hv.fresh i n hn
      omega
    · have := (List.getElem?_eq_some_iff.mp he).1
      omega
  · obtain ⟨n, hn, hrest⟩ := hv.root
    exact ⟨n, hold hn, hrest⟩
  · rcases populate_nodes_cases hv hd hn with hn | ⟨k, e, -, -, rfl⟩
    · obtain ⟨p, hp, hpdir⟩ := hv.parent i n hn
      exact ⟨p, hold hp, hpdir⟩
    · exact ⟨dir, hold hdir, hisDir⟩
  · rcases populate_childMap (hv.unmapped hd) g oid (d', name) with
      ⟨hk, -⟩ | ⟨rfl, k, e, he, hname, hk⟩
    · rw [hk] at hi
      obtain ⟨⟨n, ⟨hne, hn, hp⟩, hname⟩, ids, hids, hmem⟩ := hv.child d' name i hi
      refine ⟨⟨n, ⟨hne, hold hn, hp⟩, hname⟩, ids, ?_, hmem⟩
      rw [populate_dirChildren (hv.unmapped hd), if_neg, hids]
      rintro rfl
      simp [hd] at hids
    · rw [hk, Option.some.injEq] at hi
      subst hi
      refine ⟨⟨_, ⟨hfresh, populate_nodes_new hv hd he, rfl⟩, hname⟩,
        List.range' v.nextInode (treeEntries g oid).length, ?_, ?_⟩
      · rw [populate_dirChildren (hv.unmapped hd), if_pos rfl]
      · have := (List.getElem?_eq_some_iff.mp he).1
        simpa using this
  · rw [populate_dirChildren (hv.unmapped hd)] at hids
    split_ifs at hids with hdd
    · subst hdd
      simp only [Option.some.injEq] at hids
      subst hids
      refine ⟨List.nodup_range', ⟨dir, hold hdir, hisDir⟩, fun i hi => ?_⟩
      obtain ⟨k, hk, rfl⟩ : ∃ k, k < (treeEntries g oid).length ∧ i = v.nextInode + k := by
        rw [List.mem_range'_1] at hi
        exact ⟨i - v.nextInode, by omega, by omega⟩
      exact ⟨_, hfresh, populate_nodes_new hv hd (List.getElem?_eq_getElem hk), rfl⟩
    · obtain ⟨hnodup, ⟨n, hn, hndir⟩, hlist⟩ := hv.listed d' ids hids
      refine ⟨hnodup, ⟨n, hold hn, hndir⟩, fun i hi => ?_⟩
      obtain ⟨m, hne, hm, hp⟩ := hlist i hi
      exact ⟨m, hne, hold hm, hp⟩

end WellFormed

/-- What comes of asking for the children of a directory. -/
theorem ensureDirPopulated_cases (g : GitEngine) (v : VfsManager) (d : Nat) :
    (∃ ids, v.dirChildren d = some ids ∧ v.ensureDirPopulated g d = (.ok (), v)) ∨
    (∃ dir, v.dirChildren d = none ∧ v.nodes d = some dir ∧ dir.isDir = true ∧
      v.ensureDirPopulated g d = (.ok (), v.populate g d dir.oid)) ∨
    ∃ e, v.ensureDirPopulated g d = (.error e, v) := by
  unfold ensureDirPopulated
  split
  · rename_i ids hids
    exact .inl ⟨ids, hids, rfl⟩
  · rename_i hids
    split
    · exact .inr (.inr ⟨_, rfl⟩)
    · rename_i dir hdir
      split_ifs with hisDir
      · exact .inr (.inl ⟨dir, hids, hdir, hisDir, rfl⟩)
      · exact .inr (.inr ⟨_, rfl⟩)

theorem ensureDirPopulated_listed {d : Nat} {ids : List Nat} (h : v.dirChildren d = some ids) :
    v.ensureDirPopulated g d = (.ok (), v) := by
  simp only [ensureDirPopulated, h]

namespace WellFormed

theorem ensureDirPopulated (hv : v.WellFormed) (d : Nat) : (v.ensureDirPopulated g d).2.WellFormed := by
  obtain ⟨ids, -, h⟩ | ⟨dir, hids, hdir, hisDir, h⟩ | ⟨e, h⟩ := ensureDirPopulated_cases g v d
  · exact h ▸ hv
  · exact h ▸ hv.populate hids hdir hisDir _
  · exact h ▸ hv

/-- A directory that could be populated has a list of children. -/
theorem ensureDirPopulated_ok {v' : VfsManager} (hv : v.WellFormed) {d : Nat}
    (h : v.ensureDirPopulated g d = (.ok (), v')) :
    v'.WellFormed ∧ ∃ ids, v'.dirChildren d = some ids := by
  refine ⟨by have := hv.ensureDirPopulated (g := g) d; rwa [h] at this, ?_⟩
  obtain ⟨ids, hids, heq⟩ | ⟨dir, hids, hdir, hisDir, heq⟩ | ⟨e, heq⟩ := ensureDirPopulated_cases g v d <;>
    rw [heq] at h
  · simp only [Prod.mk.injEq, true_and] at h
    exact ⟨ids, h ▸ hids⟩
  · simp only [Prod.mk.injEq, true_and] at h
    exact ⟨_, by rw [← h, populate_dirChildren (hv.unmapped hids), if_pos rfl]⟩
  · simp at h

/-! ## Changing -/

/-- A change of one node that leaves alone what the tables say of it. -/
theorem modifyNode (hv : v.WellFormed) (i : Nat) (f : VfsNode → VfsNode)
    (hf : ∀ n, (f n).id = n.id ∧ (f n).parentId = n.parentId ∧ (f n).name = n.name ∧ (f n).isDir = n.isDir)
    (hroot : i = rootInode → ∀ n, (f n).isDeleted = n.isDeleted) : (v.modifyNode i f).WellFormed := by
  have hnew {j : Nat} {n : VfsNode} (hn : v.nodes j = some n) :
      ∃ m, (v.modifyNode i f).nodes j = some m ∧ m.id = n.id ∧ m.parentId = n.parentId ∧ m.name = n.name ∧
        m.isDir = n.isDir ∧ (j = rootInode → m.isDeleted = n.isDeleted) := by
    rw [modifyNode_nodes]
    split_ifs with hj
    · subst hj
      exact ⟨f n, by rw [hn]; rfl, (hf n).1, (hf n).2.1, (hf n).2.2.1, (hf n).2.2.2, fun h => hroot h n⟩
    · exact ⟨n, hn, rfl, rfl, rfl, rfl, fun _ => rfl⟩
  have hback {j : Nat} {m : VfsNode} (hm : (v.modifyNode i f).nodes j = some m) :
      ∃ n, v.nodes j = some n ∧ m.id = n.id ∧ m.parentId = n.parentId := by
    rw [modifyNode_nodes] at hm
    split_ifs at hm with hj
    · subst hj
      obtain ⟨n, hn, rfl⟩ := Option.map_eq_some_iff.mp hm
      exact ⟨n, hn, (hf n).1, (hf n).2.1⟩
    · exact ⟨m, hm, rfl, rfl⟩
  refine ⟨fun j m hm => ?_, fun j m hm => ?_, ?_, fun j m hm => ?_, fun d name j hj => ?_,
    fun d ids hids => ?_⟩
  · obtain ⟨n, hn, hid, -⟩ := hback hm
    rw [hid, hv.id_eq j n hn]
  · obtain ⟨n, hn, -⟩ := hback hm
    exact hv.fresh j n hn
  · obtain ⟨n, hn, hdir, hdel, hp⟩ := hv.root
    obtain ⟨m, hm, -, hmp, -, hmdir, hmdel⟩ := hnew hn
    exact ⟨m, hm, hmdir.trans hdir, (hmdel rfl).trans hdel, hmp.trans hp⟩
  · obtain ⟨n, hn, -, hp⟩ := hback hm
    obtain ⟨p, hpn, hpdir⟩ := hv.parent j n hn
    obtain ⟨q, hq, -, -, -, hqdir, -⟩ := hnew hpn
    exact ⟨q, hp ▸ hq, hqdir.trans hpdir⟩
  · obtain ⟨⟨n, ⟨hne, hn, hp⟩, hname⟩, hlist⟩ := hv.child d name j hj
    obtain ⟨m, hm, -, hmp, hmname, -⟩ := hnew hn
    exact ⟨⟨m, ⟨hne, hm, hmp.trans hp⟩, hmname.trans hname⟩, hlist⟩
  · obtain ⟨hnodup, ⟨n, hn, hdir⟩, hlist⟩ := hv.listed d ids hids
    obtain ⟨m, hm, -, -, -, hmdir, -⟩ := hnew hn
    refine ⟨hnodup, ⟨m, hm, hmdir.trans hdir⟩, fun j hj => ?_⟩
    obtain ⟨n, hne, hn, hp⟩ := hlist j hj
    obtain ⟨m, hm, -, hmp, -⟩ := hnew hn
    exact ⟨m, hne, hm, hmp.trans hp⟩

/-- A node under the next inode, in a directory that has a list. -/
theorem addNode (hv : v.WellFormed) {n : VfsNode} (hid : n.id = v.nextInode) {ids : List Nat}
    (hids : v.dirChildren n.parentId = some ids) : (v.addNode n).WellFormed := by
  obtain ⟨hnodup, ⟨dir, hdir, hisDir⟩, hlist⟩ := hv.listed _ ids hids
  have hnew : (v.addNode n).nodes v.nextInode = some n := by simp [VfsManager.addNode, hid]
  have hold {j : Nat} {m : VfsNode} (hm : v.nodes j = some m) : (v.addNode n).nodes j = some m := by
    have := hv.fresh j m hm
    have hne : j ≠ v.nextInode := by omega
    simp [VfsManager.addNode, hid, hne, hm]
  have hback {j : Nat} {m : VfsNode} (hm : (v.addNode n).nodes j = some m) :
      v.nodes j = some m ∨ j = v.nextInode ∧ m = n := by
    simp only [VfsManager.addNode, pushChild_nodes, insertNode_nodes, hid] at hm
    split_ifs at hm with hj
    · exact .inr ⟨hj, (Option.some.inj hm).symm⟩
    · exact .inl hm
  have hroot : v.nextInode ≠ rootInode := by
    obtain ⟨r, hr, -⟩ := hv.root
    have := hv.fresh _ r hr
    omega
  have hchildren (d : Nat) : (v.addNode n).dirChildren d =
      if d = n.parentId then some (ids ++ [v.nextInode]) else v.dirChildren d := by
    simp [VfsManager.addNode, hids, hid]
  refine ⟨fun j m hm => ?_, fun j m hm => ?_, ?_, fun j m hm => ?_, fun d name j hj => ?_,
    fun d ids' hids' => ?_⟩
  · rcases hback hm with hm | ⟨rfl, rfl⟩
    · exact hv.id_eq j m hm
    · exact hid
  · have hnext : (v.addNode n).nextInode = v.nextInode + 1 := rfl
    rcases hback hm with hm | ⟨rfl, rfl⟩
    · have := hv.fresh j m hm
      omega
    · omega
  · obtain ⟨r, hr, hrest⟩ := hv.root
    exact ⟨r, hold hr, hrest⟩
  · rcases hback hm with hm | ⟨rfl, rfl⟩
    · obtain ⟨p, hp, hpdir⟩ := hv.parent j m hm
      exact ⟨p, hold hp, hpdir⟩
    · exact ⟨dir, hold hdir, hisDir⟩
  · simp only [VfsManager.addNode, pushChild_childMap, insertNode_childMap, hid] at hj
    split_ifs at hj with hk
    · simp only [Prod.mk.injEq, Option.some.injEq] at hk hj
      obtain ⟨rfl, rfl⟩ := hk
      subst hj
      exact ⟨⟨n, ⟨hroot, hnew, rfl⟩, rfl⟩, ids ++ [v.nextInode], by rw [hchildren, if_pos rfl], by simp⟩
    · obtain ⟨⟨m, ⟨hne, hm, hp⟩, hname⟩, ids', hids', hmem⟩ := hv.child d name j hj
      refine ⟨⟨m, ⟨hne, hold hm, hp⟩, hname⟩, ?_⟩
      rw [hchildren]
      split_ifs with hd
      · rw [hd, hids, Option.some.injEq] at hids'
        exact ⟨_, rfl, by simp [hids', hmem]⟩
      · exact ⟨ids', hids', hmem⟩
  · rw [hchildren] at hids'
    split_ifs at hids' with hd
    · subst hd
      simp only [Option.some.injEq] at hids'
      subst hids'
      refine ⟨?_, ⟨dir, hold hdir, hisDir⟩, fun j hj => ?_⟩
      · refine hnodup.append (List.nodup_singleton _) fun j hj hj' => ?_
        obtain ⟨m, -, hm, -⟩ := hlist j hj
        rw [List.mem_singleton.mp hj', hv.not_node le_rfl] at hm
        simp at hm
      · rcases List.mem_append.mp hj with hj | hj
        · obtain ⟨m, hne, hm, hp⟩ := hlist j hj
          exact ⟨m, hne, hold hm, hp⟩
        · rw [List.mem_singleton] at hj
          exact ⟨n, hj ▸ hroot, hj ▸ hnew, rfl⟩
    · obtain ⟨hnodup', ⟨p, hp, hpdir⟩, hlist'⟩ := hv.listed d ids' hids'
      refine ⟨hnodup', ⟨p, hold hp, hpdir⟩, fun j hj => ?_⟩
      obtain ⟨m, hne, hm, hp⟩ := hlist' j hj
      exact ⟨m, hne, hold hm, hp⟩

/-- An empty list for a directory that has none. -/
theorem setEmpty (hv : v.WellFormed) {d : Nat} {dir : VfsNode} (hdir : v.nodes d = some dir)
    (hisDir : dir.isDir = true) (hd : v.dirChildren d = none) : (v.setDirChildren d []).WellFormed := by
  refine ⟨hv.id_eq, hv.fresh, hv.root, hv.parent, fun d' name i hi => ?_, fun d' ids hids => ?_⟩
  · obtain ⟨hn, ids, hids, hmem⟩ := hv.child d' name i hi
    refine ⟨hn, ids, ?_, hmem⟩
    rw [setDirChildren_dirChildren, if_neg, hids]
    rintro rfl
    simp [hd] at hids
  · rw [setDirChildren_dirChildren] at hids
    split_ifs at hids with hdd
    · subst hdd
      simp only [Option.some.injEq] at hids
      subst hids
      exact ⟨List.nodup_nil, ⟨dir, hdir, hisDir⟩, by simp⟩
    · exact hv.listed d' ids hids

end WellFormed

/-- A node that no name leads to and no list holds. -/
def Detached (v : VfsManager) (i : Nat) : Prop :=
  (∀ k, v.childMap k ≠ some i) ∧ ∀ d ids, v.dirChildren d = some ids → i ∉ ids

def detach (v : VfsManager) (n : VfsNode) : VfsManager :=
  (v.dropChild n.parentId n.id).setChild n.parentId n.name none

def attach (v : VfsManager) (i d : Nat) (name : Str) : VfsManager :=
  ((v.modifyNode i fun node => { node with parentId := d, name := name }).setChild d name (some i)).pushChild d i

namespace WellFormed

theorem detach (hv : v.WellFormed) {i : Nat} {n : VfsNode} (hn : v.nodes i = some n) :
    (v.detach n).WellFormed ∧ (v.detach n).Detached i := by
  have hid := hv.id_eq i n hn
  have hmap {d : Nat} {name : Str} {j : Nat} (hj : (v.detach n).childMap (d, name) = some j) :
      v.childMap (d, name) = some j ∧ j ≠ i := by
    simp only [VfsManager.detach, setChild_childMap, dropChild_childMap] at hj
    split_ifs at hj with hk
    refine ⟨hj, ?_⟩
    rintro rfl
    obtain ⟨⟨m, ⟨-, hm, rfl⟩, rfl⟩, -⟩ := hv.child d name j hj
    rw [hn, Option.some.injEq] at hm
    exact hk (hm ▸ rfl)
  have hlist {d : Nat} {ids : List Nat} (hids : (v.detach n).dirChildren d = some ids) :
      ∃ ids', v.dirChildren d = some ids' ∧ i ∉ ids ∧
        (ids = ids' ∨ ids = ids'.filter fun childId => childId ≠ i) := by
    simp only [VfsManager.detach, setChild_dirChildren, dropChild_dirChildren, hid] at hids
    split_ifs at hids with hd
    · obtain ⟨ids', hids', rfl⟩ := Option.map_eq_some_iff.mp hids
      exact ⟨ids', hd ▸ hids', by simp, .inr rfl⟩
    · refine ⟨ids, hids, fun hmem => ?_, .inl rfl⟩
      obtain ⟨m, -, hm, hp⟩ := (hv.listed d ids hids).2.2 i hmem
      rw [hn, Option.some.injEq] at hm
      exact hd (hm ▸ hp.symm)
  refine ⟨⟨hv.id_eq, hv.fresh, hv.root, hv.parent, fun d name j hj => ?_, fun d ids hids => ?_⟩,
    fun k hk => (hmap hk).2 rfl, fun d ids hids => ?_⟩
  · obtain ⟨hj, hne⟩ := hmap hj
    obtain ⟨hm, ids, hids, hmem⟩ := hv.child d name j hj
    refine ⟨hm, ?_⟩
    simp only [VfsManager.detach, setChild_dirChildren, dropChild_dirChildren, hid]
    split_ifs with hd
    · subst hd
      exact ⟨_, by rw [hids]; rfl, by simpa using ⟨hmem, hne⟩⟩
    · exact ⟨ids, hids, hmem⟩
  · obtain ⟨ids', hids', -, heq⟩ := hlist hids
    obtain ⟨hnodup, hdir, hmem⟩ := hv.listed d ids' hids'
    rcases heq with rfl | rfl
    · exact ⟨hnodup, hdir, hmem⟩
    · exact ⟨hnodup.filter _, hdir, fun j hj => hmem j (List.mem_of_mem_filter hj)⟩
  · obtain ⟨-, -, hmem, -⟩ := hlist hids
    exact hmem

theorem attach (hv : v.WellFormed) {i d : Nat} {n : VfsNode} (hn : v.nodes i = some n)
    (hroot : i ≠ rootInode) (hfree : v.Detached i) {ids : List Nat} (hids : v.dirChildren d = some ids)
    (name : Str) : (v.attach i d name).WellFormed := by
  obtain ⟨hnodup, ⟨dir, hdir, hisDir⟩, hlist⟩ := hv.listed d ids hids
  have hmoved : (v.attach i d name).nodes i = some { n with parentId := d, name := name } := by
    simp [VfsManager.attach, hn]
  have hother {j : Nat} (hj : j ≠ i) : (v.attach i d name).nodes j = v.nodes j := by
    simp [VfsManager.attach, hj]
  have hdirs {j : Nat} {m : VfsNode} (hm : v.nodes j = some m) (hmdir : m.isDir = true) :
      ∃ p, (v.attach i d name).nodes j = some p ∧ p.isDir = true := by
    by_cases hj : j = i
    · subst hj
      rw [hn, Option.some.injEq] at hm
      exact ⟨_, hmoved, hm ▸ hmdir⟩
    · exact ⟨m, by rw [hother hj, hm], hmdir⟩
  have hchildOf {d' j : Nat} {m : VfsNode} (hj : j ≠ i) (h : v.ChildOf d' j m) :
      (v.attach i d name).ChildOf d' j m := ⟨h.1, by rw [hother hj]; exact h.2.1, h.2.2⟩
  have hchildren (d' : Nat) : (v.attach i d name).dirChildren d' =
      if d' = d then some (ids ++ [i]) else v.dirChildren d' := by
    simp [VfsManager.attach, hids]
  refine ⟨fun j m hm => ?_, fun j m hm => ?_, ?_, fun j m hm => ?_, fun d' name' j hj => ?_,
    fun d' ids' hids' => ?_⟩
  · by_cases hj : j = i
    · subst hj
      rw [hmoved, Option.some.injEq] at hm
      exact hm ▸ hv.id_eq j n hn
    · exact hv.id_eq j m (by rw [← hother hj, hm])
  · by_cases hj : j = i
    · exact hj ▸ hv.fresh i n hn
    · exact hv.fresh j m (by rw [← hother hj, hm])
  · obtain ⟨r, hr, hrest⟩ := hv.root
    exact ⟨r, by rw [hother hroot.symm, hr], hrest⟩
  · by_cases hj : j = i
    · subst hj
      rw [hmoved, Option.some.injEq] at hm
      exact hm ▸ hdirs hdir hisDir
    · obtain ⟨p, hp, hpdir⟩ := hv.parent j m (by rw [← hother hj, hm])
      exact hdirs hp hpdir
  · simp only [VfsManager.attach, pushChild_childMap, setChild_childMap, modifyNode_childMap] at hj
    split_ifs at hj with hk
    · simp only [Prod.mk.injEq, Option.some.injEq] at hk hj
      obtain ⟨rfl, rfl⟩ := hk
      subst hj
      exact ⟨⟨_, ⟨hroot, hmoved, rfl⟩, rfl⟩, ids ++ [i], by rw [hchildren, if_pos rfl], by simp⟩
    · have hne : j ≠ i := fun h => hfree.1 _ (h ▸ hj)
      obtain ⟨⟨m, hm, hname⟩, ids', hids', hmem⟩ := hv.child d' name' j hj
      refine ⟨⟨m, hchildOf hne hm, hname⟩, ?_⟩
      rw [hchildren]
      split_ifs with hd
      · rw [hd, hids, Option.some.injEq] at hids'
        exact ⟨_, rfl, by simp [hids', hmem]⟩
      · exact ⟨ids', hids', hmem⟩
  · rw [hchildren] at hids'
    split_ifs at hids' with hd
    · subst hd
      simp only [Option.some.injEq] at hids'
      subst hids'
      refine ⟨hnodup.append (List.nodup_singleton _) fun j hj hj' => ?_, hdirs hdir hisDir, fun j hj => ?_⟩
      · exact hfree.2 d' ids hids (List.mem_singleton.mp hj' ▸ hj)
      · by_cases hji : j = i
        · subst hji
          exact ⟨_, hroot, hmoved, rfl⟩
        · obtain ⟨m, hm⟩ := hlist j (by simpa [hji] using hj)
          exact ⟨m, hchildOf hji hm⟩
    · obtain ⟨hnodup', ⟨p, hp, hpdir⟩, hlist'⟩ := hv.listed d' ids' hids'
      refine ⟨hnodup', hdirs hp hpdir, fun j hj => ?_⟩
      have hne : j ≠ i := fun h => hfree.2 d' ids' hids' (h ▸ hj)
      obtain ⟨m, hm⟩ := hlist' j hj
      exact ⟨m, hchildOf hne hm⟩

/-! ### The operations -/

theorem updateFileSize (hv : v.WellFormed) (i size : Nat) : (v.updateFileSize i size).WellFormed :=
  hv.modifyNode i _ (fun _ => ⟨rfl, rfl, rfl, rfl⟩) fun _ _ => rfl

theorem lookup (hv : v.WellFormed) (d : Nat) (name : Str) : (v.lookup g d name).2.WellFormed := by
  unfold VfsManager.lookup
  split_ifs
  · exact hv
  · split <;> exact hv
  · split
    · exact hv
    · have := hv.ensureDirPopulated (g := g) d
      split
      · rename_i h
        rwa [h] at this
      · rename_i h
        rw [h] at this
        split <;> exact this

theorem listDir (hv : v.WellFormed) (d : Nat) : (v.listDir g d).2.WellFormed := by
  have := hv.ensureDirPopulated (g := g) d
  unfold VfsManager.listDir
  split
  · rename_i h
    rwa [h] at this
  · rename_i h
    rwa [h] at this

theorem createFile (hv : v.WellFormed) (d : Nat) (name : Str) (mode : TreeEntryMode) :
    (v.createFile g d name mode).2.WellFormed := by
  unfold VfsManager.createFile
  split
  · rename_i h
    have := hv.ensureDirPopulated (g := g) d
    rwa [h] at this
  · rename_i v' h
    obtain ⟨hv', ids, hids⟩ := hv.ensureDirPopulated_ok h
    split
    · rename_i i node hi
      refine hv'.modifyNode i _ (fun _ => ⟨rfl, rfl, rfl, rfl⟩) fun hroot => ?_
      obtain ⟨j, hj, hnode⟩ := Option.bind_eq_some_iff.mp hi
      obtain ⟨n, -, heq⟩ := Option.map_eq_some_iff.mp hnode
      simp only [Prod.mk.injEq] at heq
      obtain ⟨⟨m, ⟨hne, -⟩, -⟩, -⟩ := hv'.child d name j hj
      exact absurd (heq.1.trans hroot) hne
    · exact hv'.addNode rfl hids

theorem mkdir (hv : v.WellFormed) (d : Nat) (name : Str) : (v.mkdir g d name).2.WellFormed := by
  unfold VfsManager.mkdir
  split
  · rename_i h
    have := hv.ensureDirPopulated (g := g) d
    rwa [h] at this
  · rename_i v' h
    obtain ⟨hv', ids, hids⟩ := hv.ensureDirPopulated_ok h
    let node : VfsNode := ⟨v'.nextInode, d, name, [], .directory, true, 4096, false⟩
    have hnode : (v'.addNode node).nodes v'.nextInode = some node := by simp [VfsManager.addNode, node]
    refine (hv'.addNode (n := node) rfl hids).setEmpty hnode rfl ?_
    have hne : v'.nextInode ≠ d := by
      rintro rfl
      simp [hv'.unlisted le_rfl] at hids
    simp [VfsManager.addNode, node, hne, hv'.unlisted le_rfl]

end WellFormed

/-- What `remove` leaves of a directory that is populated. -/
theorem remove_cases (g : GitEngine) (v : VfsManager) (d : Nat) (name : Str) :
    (∃ e, (v.remove g d name).1 = .error e ∧ (v.remove g d name).2 = (v.ensureDirPopulated g d).2) ∨
    ∃ v' i n, v.ensureDirPopulated g d = (.ok (), v') ∧ v'.childMap (d, name) = some i ∧
      v'.nodes i = some n ∧ (v.remove g d name) =
        (.ok { n with isDeleted := true }, ((v'.modifyNode i fun node => { node with isDeleted := true }).dropChild d i).setChild d name none) := by
  unfold remove
  split
  · rename_i h
    exact .inl ⟨_, rfl, by rw [h]⟩
  · rename_i v' h
    split
    · exact .inl ⟨_, rfl, by rw [h]⟩
    · rename_i i hi
      split
      · exact .inl ⟨_, rfl, by rw [h]⟩
      · rename_i n hn
        exact .inr ⟨v', i, n, h, hi, hn, rfl⟩

namespace WellFormed

theorem remove (hv : v.WellFormed) (d : Nat) (name : Str) : (v.remove g d name).2.WellFormed := by
  obtain ⟨e, -, h⟩ | ⟨v', i, n, hpop, hi, hn, h⟩ := remove_cases g v d name
  · rw [h]
    exact hv.ensureDirPopulated d
  · obtain ⟨hv', -⟩ := hv.ensureDirPopulated_ok hpop
    obtain ⟨⟨m, ⟨hroot, hm, hp⟩, hname⟩, -⟩ := hv'.child d name i hi
    rw [hn, Option.some.injEq] at hm
    subst hm
    have hkill := hv'.modifyNode i (fun node => { node with isDeleted := true })
      (fun _ => ⟨rfl, rfl, rfl, rfl⟩) fun h => absurd h hroot
    have hdead : (v'.modifyNode i fun node => { node with isDeleted := true }).nodes i =
        some { n with isDeleted := true } := by simp [hn]
    have := (hkill.detach hdead).1
    simp only [VfsManager.detach, hp, hname, hv'.id_eq i n hn] at this
    rw [h]
    exact this

end WellFormed

/-- What `rename` does to two directories that are populated: it takes the node out and puts it back in. -/
theorem rename_cases (g : GitEngine) (v : VfsManager) (fd : Nat) (fn : Str) (td : Nat) (tn : Str) :
    (∃ e, (v.rename g fd fn td tn).1 = .error e ∧
      ((v.rename g fd fn td tn).2 = (v.ensureDirPopulated g fd).2 ∨
        (v.rename g fd fn td tn).2 = ((v.ensureDirPopulated g fd).2.ensureDirPopulated g td).2)) ∨
    ∃ v₁ v₂ i n, v.ensureDirPopulated g fd = (.ok (), v₁) ∧ v₁.ensureDirPopulated g td = (.ok (), v₂) ∧
      v₂.childMap (fd, fn) = some i ∧ v₂.nodes i = some n ∧
      v.rename g fd fn td tn = (.ok (),
        (((v₂.remove g td tn).2.dropChild fd i).setChild fd fn none).attach i td tn) := by
  unfold rename
  split
  · rename_i h
    exact .inl ⟨_, rfl, .inl (by rw [h])⟩
  · rename_i v₁ h₁
    split
    · rename_i h₂
      exact .inl ⟨_, rfl, .inr (by rw [h₁, h₂])⟩
    · rename_i v₂ h₂
      split
      · exact .inl ⟨_, rfl, .inr (by rw [h₁, h₂])⟩
      · rename_i i hi
        split
        · exact .inl ⟨_, rfl, .inr (by rw [h₁, h₂])⟩
        · rename_i n hn
          exact .inr ⟨v₁, v₂, i, n, h₁, h₂, hi, hn, rfl⟩

/-- A directory that was populated stays populated. -/
theorem ensureDirPopulated_keeps_list (hv : v.WellFormed) {d : Nat} {ids : List Nat}
    (h : v.dirChildren d = some ids) (d' : Nat) : (v.ensureDirPopulated g d').2.dirChildren d = some ids := by
  obtain ⟨ids', -, heq⟩ | ⟨dir, hids, hdir, hisDir, heq⟩ | ⟨e, heq⟩ := ensureDirPopulated_cases g v d' <;>
    rw [heq]
  · exact h
  · rw [populate_dirChildren (hv.unmapped hids), if_neg, h]
    rintro rfl
    simp [hids] at h
  · exact h

/-- What `remove` does in a directory that is populated. -/
theorem remove_listed {d : Nat} {ids : List Nat} (h : v.dirChildren d = some ids) (name : Str) :
    (v.remove g d name).2 = v ∨
    ∃ i n, v.childMap (d, name) = some i ∧ v.nodes i = some n ∧ (v.remove g d name).2 =
      ((v.modifyNode i fun node => { node with isDeleted := true }).dropChild d i).setChild d name none := by
  obtain ⟨e, -, heq⟩ | ⟨v', i, n, hpop, hi, hn, heq⟩ := remove_cases g v d name
  · rw [ensureDirPopulated_listed h] at heq
    exact .inl heq
  · rw [ensureDirPopulated_listed h] at hpop
    simp only [Prod.mk.injEq, true_and] at hpop
    subst hpop
    exact .inr ⟨i, n, hi, hn, by rw [heq]⟩

namespace WellFormed

theorem rename (hv : v.WellFormed) (fd : Nat) (fn : Str) (td : Nat) (tn : Str) :
    (v.rename g fd fn td tn).2.WellFormed := by
  obtain ⟨e, -, h | h⟩ | ⟨v₁, v₂, i, n, h₁, h₂, hi, hn, h⟩ := rename_cases g v fd fn td tn
  · exact h ▸ hv.ensureDirPopulated fd
  · exact h ▸ (hv.ensureDirPopulated fd).ensureDirPopulated td
  · obtain ⟨hv₁, -⟩ := hv.ensureDirPopulated_ok h₁
    obtain ⟨hv₂, ids, hids⟩ := hv₁.ensureDirPopulated_ok h₂
    obtain ⟨⟨m, ⟨hroot, hm, hp⟩, hname⟩, -⟩ := hv₂.child fd fn i hi
    rw [hn, Option.some.injEq] at hm
    subst hm
    have hw := hv₂.remove (g := g) td tn
    have hkept : ∃ n', (v₂.remove g td tn).2.nodes i = some n' ∧ n'.parentId = fd ∧ n'.name = fn := by
      rcases remove_listed (g := g) hids tn with heq | ⟨j, n', hj, hn', heq⟩
      · exact ⟨n, by rw [heq, hn], hp, hname⟩
      · rw [heq]
        by_cases hij : i = j
        · subst hij
          exact ⟨{ n with isDeleted := true }, by simp [hn], hp, hname⟩
        · exact ⟨n, by simp [hij, hn], hp, hname⟩
    have hlisted : ∃ ids, (v₂.remove g td tn).2.dirChildren td = some ids := by
      rcases remove_listed (g := g) hids tn with heq | ⟨j, n', hj, hn', heq⟩
      · exact ⟨ids, by rw [heq, hids]⟩
      · exact ⟨_, by rw [heq]; simp [hids]; rfl⟩
    generalize (v₂.remove g td tn).2 = w at h hw hkept hlisted
    obtain ⟨n', hn', hp', hname'⟩ := hkept
    obtain ⟨ids', hids'⟩ := hlisted
    obtain ⟨hdet, hfree⟩ := hw.detach hn'
    have hback : ∃ ids, (w.detach n').dirChildren td = some ids := by
      simp only [VfsManager.detach, setChild_dirChildren, dropChild_dirChildren]
      split_ifs with hd
      · exact ⟨_, by rw [← hd, hids']; rfl⟩
      · exact ⟨ids', hids'⟩
    obtain ⟨ids'', hids''⟩ := hback
    have := hdet.attach hn' hroot hfree hids'' tn
    simp only [VfsManager.detach, hp', hname', hw.id_eq i n' hn'] at this
    rw [h]
    exact this

theorem lookupParts (hv : v.WellFormed) (curr : Nat) (parts : List Str) :
    (v.lookupParts g curr parts).2.WellFormed := by
  induction parts generalizing v curr with
  | nil => exact hv
  | cons part parts ih =>
    rw [VfsManager.lookupParts]
    split_ifs
    · exact ih hv curr
    · have := hv.lookup (g := g) curr part
      split
      · rename_i h
        rwa [h] at this
      · rename_i id v' h
        rw [h] at this
        exact ih this id

theorem lookupPath (hv : v.WellFormed) (path : Str) : (v.lookupPath g path).2.WellFormed := by
  unfold VfsManager.lookupPath
  simp only
  split_ifs
  · exact hv
  · exact hv.lookupParts _ _

theorem ensureDirs (hv : v.WellFormed) (curr : Nat) (parts : List Str) :
    (v.ensureDirs g curr parts).2.WellFormed := by
  induction parts generalizing v curr with
  | nil => exact hv
  | cons part parts ih =>
    rw [VfsManager.ensureDirs]
    have hlookup := hv.lookup (g := g) curr part
    split
    · rename_i id v' h
      rw [h] at hlookup
      exact ih hlookup id
    · rename_i v' h
      rw [h] at hlookup
      have hmk := hlookup.mkdir (g := g) curr part
      split
      · rename_i h'
        rwa [h'] at hmk
      · rename_i node v'' h'
        rw [h'] at hmk
        exact ih hmk node.id

theorem ensureParentDirs (hv : v.WellFormed) (path : Str) : (v.ensureParentDirs g path).2.WellFormed := by
  unfold VfsManager.ensureParentDirs
  simp only
  split
  · exact hv
  · have := hv.ensureDirs (g := g) rootInode (components (trimMatches '/' path)).dropLast
    split
    · rename_i h
      rwa [h] at this
    · rename_i h
      rwa [h] at this

end WellFormed

/-! ## Paths -/

/-- No walk up meets a node that is not there. -/
theorem getPathLoop_ne_error (hv : v.WellFormed) (fuel curr : Nat) (hcurr : ∃ n, v.nodes curr = some n)
    (e : Error) : v.getPathLoop fuel curr ≠ some (.error e) := by
  induction fuel generalizing curr with
  | zero =>
    unfold getPathLoop
    split_ifs <;> simp
  | succ fuel ih =>
    obtain ⟨n, hn⟩ := hcurr
    unfold getPathLoop
    split_ifs
    · simp
    · simp only [hn]
      split_ifs
      · simp
      · obtain ⟨p, hp, -⟩ := hv.parent curr n hn
        intro h
        obtain ⟨r, hr, hmap⟩ := Option.map_eq_some_iff.mp h
        cases r with
        | error e' => exact absurd hr (by
            have := ih n.parentId ⟨p, hp⟩
            cases hmap
            exact this)
        | ok parts => simp [Except.map] at hmap

theorem getPath_ne_error (hv : v.WellFormed) {i : Nat} {n : VfsNode} (hn : v.nodes i = some n) (e : Error) :
    v.getPath i ≠ some (.error e) := by
  intro h
  obtain ⟨r, hr, hmap⟩ := Option.map_eq_some_iff.mp h
  cases r with
  | error e' => exact getPathLoop_ne_error hv _ _ ⟨n, hn⟩ e' hr
  | ok parts => simp [Except.map] at hmap

end VfsManager

end GitNfs
