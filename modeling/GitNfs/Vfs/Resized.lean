import GitNfs.Vfs.View

/-! # Another size at most

Two engines that have the same trees may know the lengths of different blobs. The inodes that a walk makes over
the one and over the other are the same but for the sizes they start with.
-/

namespace GitNfs

/-- The same node, and with the size it has unless the engines differ over its blob. -/
structure VfsNode.Resized (g g' : GitEngine) (n n' : VfsNode) : Prop where
  rest : { n with size := n'.size } = n'
  size : g'.blobSize n.oid = g.blobSize n.oid → n'.size = n.size

namespace VfsNode.Resized

variable {g g' : GitEngine} {n n' : VfsNode}

theorem refl (n : VfsNode) : n.Resized g g' n := ⟨rfl, fun _ => rfl⟩

theorem id (h : n.Resized g g' n') : n'.id = n.id := by rw [← h.rest]

theorem parentId (h : n.Resized g g' n') : n'.parentId = n.parentId := by rw [← h.rest]

theorem name (h : n.Resized g g' n') : n'.name = n.name := by rw [← h.rest]

theorem oid (h : n.Resized g g' n') : n'.oid = n.oid := by rw [← h.rest]

theorem mode (h : n.Resized g g' n') : n'.mode = n.mode := by rw [← h.rest]

theorem isDir (h : n.Resized g g' n') : n'.isDir = n.isDir := by rw [← h.rest]

theorem isDeleted (h : n.Resized g g' n') : n'.isDeleted = n.isDeleted := by rw [← h.rest]

end VfsNode.Resized

namespace VfsManager

variable {g g' : GitEngine} {v v' w : VfsManager}

/-- The same inodes in the same places, up to sizes. -/
structure Resized (g g' : GitEngine) (v v' : VfsManager) : Prop where
  nodes : ∀ i, Option.Rel (VfsNode.Resized g g') (v.nodes i) (v'.nodes i)
  childMap : v'.childMap = v.childMap
  dirChildren : v'.dirChildren = v.dirChildren
  nextInode : v'.nextInode = v.nextInode

namespace Resized

theorem refl (v : VfsManager) : Resized g g' v v := by
  refine ⟨fun i => ?_, rfl, rfl, rfl⟩
  cases v.nodes i with
  | none => exact .none
  | some n => exact .some (.refl n)

theorem node (h : Resized g g' v v') {i : Nat} {n : VfsNode} (hn : v.nodes i = some n) :
    ∃ n', v'.nodes i = some n' ∧ n.Resized g g' n' := by
  have := h.nodes i
  rw [hn] at this
  exact Walk.rel_some_left this

theorem missing (h : Resized g g' v v') {i : Nat} (hn : v.nodes i = none) : v'.nodes i = none := by
  have := h.nodes i
  rw [hn] at this
  cases hn' : v'.nodes i with
  | none => rfl
  | some n' =>
    rw [hn'] at this
    cases this

theorem getNode (h : Resized g g' v v') (i : Nat) :
    Option.Rel (VfsNode.Resized g g') (v.getNode i) (v'.getNode i) := by
  unfold VfsManager.getNode
  cases hn : v.nodes i with
  | none =>
    rw [h.missing hn]
    exact .none
  | some n =>
    obtain ⟨n', hn', hr⟩ := h.node hn
    simp only [hn', hr.isDeleted]
    split_ifs
    · exact .none
    · exact .some hr

theorem liveChild (h : Resized g g' v v') (d : Nat) (name : Str) : v'.liveChild d name = v.liveChild d name := by
  unfold VfsManager.liveChild
  rw [h.childMap]
  cases v.childMap (d, name) with
  | none => rfl
  | some i =>
    have hnode := h.getNode i
    cases hn : v.getNode i with
    | none =>
      rw [hn] at hnode
      cases hn' : v'.getNode i with
      | none => simp only [hn, hn']
      | some n' =>
        rw [hn'] at hnode
        cases hnode
    | some n =>
      rw [hn] at hnode
      obtain ⟨n', hn', -⟩ := Walk.rel_some_left hnode
      simp only [hn, hn', Option.map_some]

theorem insertNode (h : Resized g g' v v') {n n' : VfsNode} (hn : n.Resized g g' n') :
    Resized g g' (v.insertNode n) (v'.insertNode n') := by
  refine ⟨fun i => ?_, ?_, h.dirChildren, h.nextInode⟩
  · simp only [VfsManager.insertNode, Function.update_apply, hn.id]
    split_ifs
    · exact .some hn
    · exact h.nodes i
  · simp only [VfsManager.insertNode, h.childMap, hn.id, hn.parentId, hn.name]

theorem insertNodes (h : Resized g g' v v') {ns ns' : List VfsNode}
    (hns : List.Forall₂ (VfsNode.Resized g g') ns ns') :
    Resized g g' (ns.foldl VfsManager.insertNode v) (ns'.foldl VfsManager.insertNode v') := by
  induction hns generalizing v v' with
  | nil => exact h
  | cons hn _ ih => exact ih (h.insertNode hn)

end Resized

theorem entryNode_resized (d i : Nat) (e : GitTreeEntry) :
    (entryNode g d i e).Resized g g' (entryNode g' d i e) := by
  refine ⟨rfl, fun hsize => ?_⟩
  unfold entryNode at hsize ⊢
  simp only [initialSize, hsize]

theorem populateEntries_resized (h : v'.childMap = v.childMap) (d : Nat) (es : List GitTreeEntry) (next : Nat) :
    (populateEntries g' v' d es next).1 = (populateEntries g v d es next).1 ∧
      List.Forall₂ (VfsNode.Resized g g') (populateEntries g v d es next).2.1
        (populateEntries g' v' d es next).2.1 ∧
      (populateEntries g' v' d es next).2.2 = (populateEntries g v d es next).2.2 := by
  induction es generalizing next with
  | nil => exact ⟨rfl, .nil, rfl⟩
  | cons e es ih =>
    simp only [populateEntries, h]
    cases v.childMap (d, e.name) with
    | some i =>
      obtain ⟨hids, hnews, hnext⟩ := ih next
      exact ⟨by simp only [hids], hnews, hnext⟩
    | none =>
      obtain ⟨hids, hnews, hnext⟩ := ih (next + 1)
      exact ⟨by simp only [hids], .cons (entryNode_resized d next e) hnews, hnext⟩

/-- A directory is populated alike over two engines that have its tree. -/
theorem Resized.populate (h : Resized g g' v v') (d : Nat) {oid : Str}
    (hentries : treeEntries g' oid = treeEntries g oid) :
    Resized g g' (v.populate g d oid) (v'.populate g' d oid) := by
  obtain ⟨hids, hnews, hnext⟩ := @populateEntries_resized g g' v v' h.childMap d (treeEntries g oid) v.nextInode
  have hbase : Resized g g' { v with nextInode := (populateEntries g v d (treeEntries g oid) v.nextInode).2.2 }
      { v' with nextInode := (populateEntries g' v' d (treeEntries g oid) v.nextInode).2.2 } :=
    ⟨h.nodes, h.childMap, h.dirChildren, hnext⟩
  have hall := hbase.insertNodes hnews
  unfold VfsManager.populate
  rw [hentries, h.nextInode]
  refine ⟨hall.nodes, hall.childMap, ?_, hall.nextInode⟩
  show Function.update _ _ _ = Function.update _ _ _
  rw [hall.dirChildren, hids]

/-- A name that is found over the one engine is found over one that has all its trees. -/
theorem Resized.lookup (h : Resized g g' v v') (htrees : ∀ oid t, g.getTree oid = some t → g'.getTree oid = some t)
    {d i : Nat} {name : Str} (hlook : v.lookup g d name = (.ok i, w)) :
    ∃ w', v'.lookup g' d name = (.ok i, w') ∧ Resized g g' w w' := by
  unfold VfsManager.lookup at hlook ⊢
  split_ifs at hlook ⊢ with hdot hdots
  · cases hlook
    exact ⟨v', rfl, h⟩
  · cases hn : v.nodes d with
    | none => simp [hn] at hlook
    | some n =>
      obtain ⟨n', hn', hr⟩ := h.node hn
      simp only [hn] at hlook
      cases hlook
      exact ⟨v', by simp only [hn', hr.parentId], h⟩
  · rw [h.liveChild d name]
    cases hlive : v.liveChild d name with
    | some j =>
      simp only [hlive] at hlook ⊢
      cases hlook
      exact ⟨v', rfl, h⟩
    | none =>
      simp only [hlive] at hlook ⊢
      unfold VfsManager.ensureDirPopulated at hlook ⊢
      rw [h.dirChildren]
      cases hids : v.dirChildren d with
      | some ids => simp [hids, hlive] at hlook
      | none =>
        simp only [hids] at hlook ⊢
        cases hn : v.nodes d with
        | none => simp [hn] at hlook
        | some n =>
          obtain ⟨n', hn', hr⟩ := h.node hn
          simp only [hn] at hlook
          simp only [hn', hr.isDir, hr.oid]
          split_ifs at hlook ⊢ with hdir
          · have hentries : treeEntries g' n.oid = treeEntries g n.oid := by
              unfold treeEntries
              cases ht : g.getTree n.oid with
              | some t => rw [htrees _ _ ht]
              | none =>
                have hempty : v.populate g d n.oid = v.setDirChildren d [] := by
                  unfold VfsManager.populate treeEntries
                  rw [ht]
                  rfl
                have hnone : (v.setDirChildren d []).liveChild d name = none := hlive
                simp [hempty, hnone] at hlook
            have hpop := h.populate d hentries
            cases hfound : (v.populate g d n.oid).liveChild d name with
            | none => simp [hfound] at hlook
            | some j =>
              simp only [hfound] at hlook
              cases hlook
              exact ⟨_, by simp only [hpop.liveChild d name, hfound], hpop⟩
          · simp at hlook

end VfsManager

end GitNfs
