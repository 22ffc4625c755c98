import GitNfs.Vfs.View

/-! # What one call edits

In a directory that is populated, making a file, making a directory and removing change one node and where
one name leads.
-/

namespace GitNfs

namespace VfsManager

variable {g : GitEngine} {v v' : VfsManager}

/-- The one name of a call, where it leads to a child. -/
def nameCut (d : Nat) (name : Str) : Nat → Str → Prop := fun d' name' => d' = d ∧ name' = name ∧ isDots name = false

theorem liveChild_congr {d : Nat} {name : Str} (hmap : v'.childMap (d, name) = v.childMap (d, name))
    (hnodes : ∀ i, v.childMap (d, name) = some i → v'.getNode i = v.getNode i) :
    v'.liveChild d name = v.liveChild d name := by
  unfold liveChild
  rw [hmap]
  cases hi : v.childMap (d, name) with
  | none => rfl
  | some i => simp only [hnodes i hi]

theorem getNode_congr {i : Nat} (h : v'.nodes i = v.nodes i) : v'.getNode i = v.getNode i := by
  unfold getNode
  rw [h]

/-- What was there under the name, and what is there now. -/
structure Created (v v' : VfsManager) (d : Nat) (name : Str) (mode : TreeEntryMode) (node : VfsNode) : Prop where
  listed : ∃ ids, v.dirChildren d = some ids
  edits : Edits (fun d' name' => nameCut d name d' name' ∧ v.liveChild d name = none) v v'
  child : v'.liveChild d name = some node.id
  here : v'.nodes node.id = some node
  others : ∀ j, j ≠ node.id → v'.nodes j = v.nodes j
  before : (∃ n, v.childMap (d, name) = some node.id ∧ v.nodes node.id = some n ∧
      node = { n with isDeleted := false, size := 0 }) ∨
    v.childMap (d, name) = none ∧ v.nodes node.id = none ∧
      node = ⟨node.id, d, name, [], mode, false, 0, false⟩

theorem addNode_lists {node : VfsNode} {ids : List Nat} (hids : v.dirChildren node.parentId = some ids)
    (d : Nat) : ((v.addNode node).dirChildren d).isSome = (v.dirChildren d).isSome := by
  unfold addNode
  rw [pushChild_dirChildren]
  split_ifs with hd
  · rw [hd, hids]
    rfl
  · rfl

/-- A node that is added under a name is the live child there, and no other name leads elsewhere. -/
theorem addNode_edits (w : VfsManager) {node : VfsNode} (hv : v.WellFormed) (hid : node.id = v.nextInode)
    (hlive : node.isDeleted = false) (hlists : ∀ d n, v.nodes d = some n → (w.dirChildren d).isSome = (v.dirChildren d).isSome)
    (hnodes : w.nodes = (v.addNode node).nodes) (hmap : w.childMap = (v.addNode node).childMap) :
    Edits (nameCut node.parentId node.name) v w ∧ w.liveChild node.parentId node.name = some node.id ∧
      w.nodes node.id = some node ∧ (∀ j, j ≠ node.id → w.nodes j = v.nodes j) ∧ v.nodes node.id = none := by
  have hnode (j : Nat) : w.nodes j = if j = node.id then some node else v.nodes j := by
    rw [hnodes]
    exact insertNode_nodes _ _ j
  have hchild (k : Nat × Str) :
      w.childMap k = if k = (node.parentId, node.name) then some node.id else v.childMap k := by
    rw [hmap]
    exact insertNode_childMap _ _ k
  have hnew : v.nodes node.id = none := hv.not_node (by omega)
  have hne {j : Nat} {n : VfsNode} (hn : v.nodes j = some n) : j ≠ node.id := by
    rintro rfl
    simp [hnew] at hn
  refine ⟨⟨fun i n hn => ?_, hlists, fun d n name hn hdots hcut => ?_⟩, ?_, ?_, fun j hj => ?_, hnew⟩
  · exact ⟨n, by rw [hnode, if_neg (hne hn), hn], rfl, rfl, rfl⟩
  · have hkey : (d, name) ≠ (node.parentId, node.name) := by
      intro heq
      simp only [Prod.mk.injEq] at heq
      exact hcut ⟨heq.1, heq.2, heq.2 ▸ hdots⟩
    apply liveChild_congr
    · rw [hchild, if_neg hkey]
    · intro i hi
      obtain ⟨m, hm, -⟩ := mapped_node hv hi
      exact getNode_congr (by rw [hnode, if_neg (hne hm)])
  · exact liveChild_eq_some.mpr
      ⟨by rw [hchild, if_pos rfl], node, getNode_eq_some.mpr ⟨by rw [hnode, if_pos rfl], hlive⟩⟩
  · rw [hnode, if_pos rfl]
  · rw [hnode, if_neg hj]

/-- A node of the name that is used again. -/
theorem revive_edits (w : VfsManager) {d : Nat} {name : Str} {n : VfsNode} (hv : v.WellFormed) (hi : v.childMap (d, name) = some n.id)
    (hn : v.nodes n.id = some n) (hmap : w.childMap = v.childMap) (hlists : w.dirChildren = v.dirChildren)
    (hnodes : ∀ j, w.nodes j = if j = n.id then some { n with isDeleted := false, size := 0 } else v.nodes j) :
    Edits (fun d' name' => nameCut d name d' name' ∧ v.liveChild d name = none) v w ∧
      w.liveChild d name = some n.id := by
  have hchild : w.liveChild d name = some n.id :=
    liveChild_eq_some.mpr ⟨by rw [hmap, hi], _, getNode_eq_some.mpr ⟨by rw [hnodes, if_pos rfl], rfl⟩⟩
  refine ⟨⟨fun j m hm => ?_, fun _ _ _ => by rw [hlists], fun d' m name' hm hdots hcut => ?_⟩, hchild⟩
  · rw [hnodes]
    split_ifs with hj
    · rw [hj, hn, Option.some.injEq] at hm
      subst hm
      exact ⟨_, rfl, rfl, rfl, rfl⟩
    · exact ⟨m, hm, rfl, rfl, rfl⟩
  · by_cases hkey : (d', name') = (d, name)
    · simp only [Prod.mk.injEq] at hkey
      obtain ⟨rfl, rfl⟩ := hkey
      have hwas : v.liveChild d' name' ≠ none := fun hnone => hcut ⟨⟨rfl, rfl, hdots⟩, hnone⟩
      obtain ⟨i, hlive⟩ := Option.ne_none_iff_exists'.mp hwas
      have heq := (liveChild_eq_some.mp hlive).1
      rw [hi, Option.some.injEq] at heq
      rw [hchild, hlive, heq]
    · apply liveChild_congr (by rw [hmap])
      intro i hto
      apply getNode_congr
      rw [hnodes, if_neg]
      rintro rfl
      exact hkey (mapped_unique hv hto hi)

theorem createFile_created (hv : v.WellFormed) {d : Nat} {name : Str} {mode : TreeEntryMode} {node : VfsNode}
    (h : v.createFile g d name mode = (.ok node, v')) :
    ∃ v₁, v.ensureDirPopulated g d = (.ok (), v₁) ∧ Created v₁ v' d name mode node := by
  unfold createFile at h
  split at h
  · simp at h
  · rename_i v₁ hpop
    obtain ⟨hv₁, ids, hids⟩ := hv.ensureDirPopulated_ok hpop
    refine ⟨v₁, hpop, ?_⟩
    split at h
    · rename_i i n hi
      obtain ⟨j, hj, hmapped⟩ := Option.bind_eq_some_iff.mp hi
      obtain ⟨m, hm, heq⟩ := Option.map_eq_some_iff.mp hmapped
      simp only [Prod.mk.injEq] at heq
      obtain ⟨rfl, rfl⟩ := heq
      obtain rfl : m.id = j := hv₁.id_eq j m hm
      simp only [Prod.mk.injEq, Except.ok.injEq] at h
      obtain ⟨rfl, rfl⟩ := h
      have hnode (k : Nat) :
          (v₁.modifyNode m.id fun node => { node with isDeleted := false, size := 0 }).nodes k =
            if k = m.id then some { m with isDeleted := false, size := 0 } else v₁.nodes k := by
        rw [modifyNode_nodes, hm]
        rfl
      obtain ⟨hedits, hchild⟩ := revive_edits
        (v₁.modifyNode m.id fun node => { node with isDeleted := false, size := 0 }) hv₁ hj hm rfl rfl hnode
      exact ⟨⟨ids, hids⟩, hedits, hchild, by rw [hnode, if_pos rfl], fun k hk => by rw [hnode, if_neg hk],
        .inl ⟨m, hj, hm, rfl⟩⟩
    · rename_i hnone
      have hfree : v₁.childMap (d, name) = none := by
        cases hi : v₁.childMap (d, name) with
        | none => rfl
        | some i =>
          obtain ⟨n, hn, -⟩ := mapped_node hv₁ hi
          simp [hi, hn] at hnone
      simp only [Prod.mk.injEq, Except.ok.injEq] at h
      obtain ⟨rfl, rfl⟩ := h
      obtain ⟨hedits, hchild, hhere, hothers, hnew⟩ := addNode_edits
        (v₁.addNode ⟨v₁.nextInode, d, name, [], mode, false, 0, false⟩) hv₁ rfl rfl
        (fun d' _ _ => addNode_lists hids d') rfl rfl
      refine ⟨⟨ids, hids⟩, ⟨hedits.nodes, hedits.lists, fun d' n name' hn hdots hcut => ?_⟩, hchild, hhere, hothers,
        .inr ⟨hfree, hnew, rfl⟩⟩
      exact hedits.live d' n name' hn hdots fun hname => hcut ⟨hname, liveChild_of_unmapped hfree⟩

/-- A new directory under a name, without children. -/
structure MadeDir (v v' : VfsManager) (d : Nat) (name : Str) (node : VfsNode) : Prop where
  listed : ∃ ids, v.dirChildren d = some ids
  edits : Edits (nameCut d name) v v'
  child : v'.liveChild d name = some node.id
  here : v'.nodes node.id = some node
  others : ∀ j, j ≠ node.id → v'.nodes j = v.nodes j
  new : v.nodes node.id = none
  isDir : node.isDir = true
  empty : v'.dirChildren node.id = some [] ∧ ∀ name', v'.childMap (node.id, name') = none

theorem mkdir_made (hv : v.WellFormed) {d : Nat} {name : Str} {node : VfsNode}
    (h : v.mkdir g d name = (.ok node, v')) :
    ∃ v₁, v.ensureDirPopulated g d = (.ok (), v₁) ∧ MadeDir v₁ v' d name node := by
  unfold mkdir at h
  split at h
  · simp at h
  · rename_i v₁ hpop
    obtain ⟨hv₁, ids, hids⟩ := hv.ensureDirPopulated_ok hpop
    obtain ⟨-, ⟨dir, hdir, -⟩, -⟩ := hv₁.listed d ids hids
    have hold := hv₁.fresh d dir hdir
    refine ⟨v₁, hpop, ?_⟩
    simp only [Prod.mk.injEq, Except.ok.injEq] at h
    obtain ⟨rfl, rfl⟩ := h
    obtain ⟨hedits, hchild, hhere, hothers, hnew⟩ := addNode_edits
      ((v₁.addNode ⟨v₁.nextInode, d, name, [], .directory, true, 4096, false⟩).setDirChildren v₁.nextInode [])
      hv₁ rfl rfl (fun d' n hn => by
        have := hv₁.fresh d' n hn
        rw [setDirChildren_dirChildren, if_neg (by omega)]
        exact addNode_lists hids d') rfl rfl
    refine ⟨⟨ids, hids⟩, hedits, hchild, hhere, hothers, hnew, rfl, by simp, fun name' => ?_⟩
    show (v₁.addNode _).childMap (v₁.nextInode, name') = none
    refine (insertNode_childMap _ _ _).trans ?_
    rw [if_neg]
    · exact hv₁.unmapped (hv₁.unlisted le_rfl) name'
    · simp only [Prod.mk.injEq, not_and]
      intro heq
      omega

/-- A node that a name led to is dead and out of the tables. -/
structure Removed (v v' : VfsManager) (d : Nat) (name : Str) (node : VfsNode) : Prop where
  wellFormed : v.WellFormed
  listed : ∃ ids, v.dirChildren d = some ids
  edits : Edits (nameCut d name) v v'
  mapped : v.childMap (d, name) = some node.id
  others : ∀ j, j ≠ node.id → v'.nodes j = v.nodes j

theorem remove_removed (hv : v.WellFormed) {d : Nat} {name : Str} {node : VfsNode}
    (h : v.remove g d name = (.ok node, v')) :
    ∃ v₁, v.ensureDirPopulated g d = (.ok (), v₁) ∧ Removed v₁ v' d name node := by
  obtain ⟨e, he, -⟩ | ⟨v₁, i, n, hpop, hi, hn, heq⟩ := remove_cases g v d name
  · simp [h] at he
  · obtain ⟨hv₁, ids, hids⟩ := hv.ensureDirPopulated_ok hpop
    rw [h, Prod.mk.injEq, Except.ok.injEq] at heq
    obtain ⟨rfl, rfl⟩ := heq
    have hid : n.id = i := hv₁.id_eq i n hn
    refine ⟨v₁, hpop, hv₁, ⟨ids, hids⟩, ⟨fun j m hm => ?_, fun d' _ _ => ?_, fun d' m name' hm hdots hcut => ?_⟩,
      by simpa [hid] using hi, fun j hj => ?_⟩
    · simp only [setChild_nodes, dropChild_nodes, modifyNode_nodes]
      split_ifs with hj
      · rw [hj, hn] at hm
        cases hm
        exact ⟨{ n with isDeleted := true }, by rw [hn]; rfl, rfl, rfl, rfl⟩
      · exact ⟨m, hm, rfl, rfl, rfl⟩
    · rw [setChild_dirChildren, dropChild_dirChildren, modifyNode_dirChildren]
      split_ifs with hd
      · rw [hd, Option.isSome_map]
      · rfl
    · have hkey : (d', name') ≠ (d, name) := by
        intro heq
        simp only [Prod.mk.injEq] at heq
        exact hcut ⟨heq.1, heq.2, heq.2 ▸ hdots⟩
      apply liveChild_congr
      · rw [setChild_childMap, if_neg hkey, dropChild_childMap, modifyNode_childMap]
      · intro j hj
        apply getNode_congr
        rw [setChild_nodes, dropChild_nodes, modifyNode_nodes, if_neg]
        rintro rfl
        exact hkey (mapped_unique hv₁ hj hi)
    · rw [setChild_nodes, dropChild_nodes, modifyNode_nodes, if_neg (hid ▸ hj)]

theorem updateFileSize_edits (v : VfsManager) (id size : Nat) :
    Edits (fun _ _ => False) v (v.updateFileSize id size) ∧
      ∀ j, j ≠ id → (v.updateFileSize id size).nodes j = v.nodes j := by
  have hnode (j : Nat) : (v.updateFileSize id size).nodes j =
      if j = id then (v.nodes id).map fun node => { node with size := size } else v.nodes j := modifyNode_nodes _ _ _ j
  refine ⟨⟨fun j n hn => ?_, fun _ _ _ => rfl, fun d n name _ _ _ => ?_⟩, fun j hj => by rw [hnode, if_neg hj]⟩
  · rw [hnode]
    split_ifs with hj
    · rw [← hj, hn]
      exact ⟨_, rfl, rfl, rfl, rfl⟩
    · exact ⟨n, hn, rfl, rfl, rfl⟩
  · unfold liveChild
    rw [show (v.updateFileSize id size).childMap (d, name) = v.childMap (d, name) from rfl]
    cases v.childMap (d, name) with
    | none => rfl
    | some i =>
      simp only [getNode, hnode]
      split_ifs with hi
      · rw [hi]
        cases v.nodes id with
        | none => rfl
        | some n =>
          simp only [Option.map_some]
          split_ifs <;> rfl
      · rfl

end VfsManager

end GitNfs
