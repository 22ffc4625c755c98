import GitNfs.Vfs.Calls

/-! # The files among the inodes

A call leaves every file its object id and its kind. A file that is new stands in a tree of the base, unless
it was created.
-/

namespace GitNfs

/-- Every tree of the base was read with `GitTree::parse`. -/
def GitEngine.ParsedTrees (g : GitEngine) : Prop :=
  ∀ oid t, g.getTree oid = some t → ∃ data, GitTree.parse data = .ok t

namespace VfsManager

variable {g : GitEngine} {v v' v'' : VfsManager}

theorem entry_isOid (hg : g.ParsedTrees) {oid : Str} {e : GitTreeEntry} (he : e ∈ treeEntries g oid) :
    IsOid e.oid := by
  unfold treeEntries at he
  split at he
  · rename_i t ht
    obtain ⟨data, hparse⟩ := hg oid t ht
    exact (parse_mem data t hparse e he).2
  · simp at he

/-- The node is an entry of the tree of a directory. -/
def FromTree (g : GitEngine) (v : VfsManager) (n : VfsNode) : Prop :=
  ∃ d dir e, v.nodes d = some dir ∧ dir.isDir = true ∧ e ∈ treeEntries g dir.oid ∧ n.oid = e.oid ∧
    n.isDir = e.mode.isDir

/-- What becomes of an inode. -/
inductive Fate (g : GitEngine) (v v' : VfsManager) (i : Nat) : Prop
  | absent (hn : v.nodes i = none) (hn' : v'.nodes i = none)
  | kept {n n' : VfsNode} (hn : v.nodes i = some n) (hn' : v'.nodes i = some n') (hoid : n'.oid = n.oid)
      (hdir : n'.isDir = n.isDir) (hlive : n'.isDeleted = false → n.isDeleted = false)
  | appears {n' : VfsNode} (hn : v.nodes i = none) (hn' : v'.nodes i = some n')
      (hnew : n'.isDir = true ∨ FromTree g v' n')

/-- No file is created and none comes back. -/
def Grows (g : GitEngine) (v v' : VfsManager) : Prop := ∀ i, Fate g v v' i

theorem Fate.same {i : Nat} (h : v'.nodes i = v.nodes i) : Fate g v v' i := by
  cases hn : v.nodes i with
  | none => exact .absent hn (h.trans hn)
  | some n => exact .kept hn (h.trans hn) rfl rfl id

namespace Grows

theorem refl (g : GitEngine) (v : VfsManager) : Grows g v v := fun _ => .same rfl

theorem fromTree (h : Grows g v v') {n : VfsNode} (hn : FromTree g v n) : FromTree g v' n := by
  obtain ⟨d, dir, e, hdir, hisDir, hrest⟩ := hn
  rcases h d with ⟨hnone, -⟩ | ⟨hn, hn', hoid, hkind, -⟩ | ⟨hnone, -, -⟩
  · simp [hdir] at hnone
  · rw [hdir, Option.some.injEq] at hn
    subst hn
    exact ⟨d, _, e, hn', hkind.trans hisDir, hoid ▸ hrest⟩
  · simp [hdir] at hnone

theorem node (h : Grows g v v') {i : Nat} {n : VfsNode} (hn : v.nodes i = some n) :
    ∃ n', v'.nodes i = some n' := by
  rcases h i with ⟨hnone, -⟩ | ⟨-, hn', -, -, -⟩ | ⟨hnone, -, -⟩
  · simp [hn] at hnone
  · exact ⟨_, hn'⟩
  · simp [hn] at hnone

theorem trans (h : Grows g v v') (h' : Grows g v' v'') : Grows g v v'' := by
  intro i
  rcases h i with ⟨hn, hm⟩ | @⟨n, n', hn, hm, hoid, hdir, hlive⟩ | @⟨n', hn, hm, hnew⟩
  · rcases h' i with ⟨-, hn'⟩ | ⟨hm', -, -, -, -⟩ | ⟨-, hn', hnew'⟩
    · exact .absent hn hn'
    · simp [hm] at hm'
    · exact .appears hn hn' hnew'
  · rcases h' i with ⟨hm', -⟩ | ⟨hm', hn', hoid', hdir', hlive'⟩ | ⟨hm', -, -⟩
    · simp [hm] at hm'
    · rw [hm, Option.some.injEq] at hm'
      subst hm'
      exact .kept hn hn' (hoid'.trans hoid) (hdir'.trans hdir) fun h => hlive (hlive' h)
    · simp [hm] at hm'
  · rcases h' i with ⟨hm', -⟩ | ⟨hm', hn', hoid', hdir', -⟩ | ⟨hm', -, -⟩
    · simp [hm] at hm'
    · rw [hm, Option.some.injEq] at hm'
      subst hm'
      refine .appears hn hn' ?_
      rcases hnew with hisDir | htree
      · exact .inl (hdir'.trans hisDir)
      · obtain ⟨d, dir, e, hd, hisDir, he, hoid, hkind⟩ := h'.fromTree htree
        exact .inr ⟨d, dir, e, hd, hisDir, he, hoid'.trans hoid, hdir'.trans hkind⟩
    · simp [hm] at hm'

end Grows

theorem Fate.mirror {g' : GitEngine} (hg : g'.trees = g.trees) {i : Nat} (h : Fate g' v v' i) :
    Fate g v v' i := by
  have htrees : treeEntries g' = treeEntries g := by
    funext oid
    unfold treeEntries GitEngine.getTree
    rw [hg]
  rcases h with ⟨hn, hn'⟩ | ⟨hn, hn', hoid, hdir, hlive⟩ | ⟨hn, hn', hnew⟩
  · exact .absent hn hn'
  · exact .kept hn hn' hoid hdir hlive
  · refine .appears hn hn' (hnew.imp_right fun htree => ?_)
    unfold FromTree at htree ⊢
    rwa [htrees] at htree

/-! ## Changes that create no file -/

theorem Change.grows {al : Allowed} (hfile : ¬ al.file) (hv : v.WellFormed) (h : Change al g v v') :
    Grows g v v' := by
  intro j
  cases h with
  | @populate d dir hd hdir hisDir =>
    cases hn' : (v.populate g d dir.oid).nodes j with
    | none =>
      refine .absent ?_ hn'
      by_contra hne
      obtain ⟨n, hn⟩ := Option.ne_none_iff_exists'.mp hne
      simp [populate_nodes_old hv hd hn] at hn'
    | some n' =>
      rcases populate_nodes_cases hv hd hn' with hn | ⟨k, e, he, rfl, rfl⟩
      · exact .kept hn hn' rfl rfl id
      · refine .appears (hv.not_node (Nat.le_add_right _ _)) hn' (.inr ?_)
        exact ⟨d, dir, e, populate_nodes_old hv hd hdir, hisDir, List.mem_of_getElem? he, rfl, rfl⟩
  | revive hal => exact absurd hal hfile
  | add hid _ hkind _ _ _ _ hnodes =>
    by_cases hj : j = v.nextInode
    · refine .appears (hv.not_node hj.ge) ?_ (.inl (hkind.resolve_left hfile))
      rw [hnodes, if_pos (hj.trans hid.symm)]
    · exact .same (by rw [hnodes, hid, if_neg hj])
  | remove hi _ hnodes =>
    have hj := hnodes j
    split_ifs at hj with hji
    · obtain ⟨n, hn, -⟩ := mapped_node hv hi
      rw [← hji] at hn
      rw [← hji, hn] at hj
      exact .kept hn hj rfl rfl (by simp [kill])
    · exact .same hj
  | @move src dst i n _ _ hn _ _ _ _ hnodes =>
    have hj := hnodes j
    split_ifs at hj with hji hdst
    · subst hji
      refine .kept hn hj rfl rfl fun hlive => ?_
      simp only [moved, Bool.or_eq_false_iff] at hlive
      exact hlive.1
    · obtain ⟨m, hm, -⟩ := mapped_node hv hdst
      rw [hm] at hj
      exact .kept hm hj rfl rfl (by simp [kill])
    · exact .same hj

/-- What a call without a condition may do that creates no file. -/
def noFile : Allowed := ⟨True, False, fun _ => True, fun _ _ _ _ => True⟩

theorem Changes.grows (h : Changes noFile g v v') : Grows g v v' := by
  induction h with
  | refl => exact .refl g v
  | tail _ hlast ih => exact ih.trans (hlast.2.grows id hlast.1)

theorem apply_grows (hv : v.WellFormed) (call : VfsCall) (hfile : call.MakesNoFile) :
    Grows g v (call.apply g v) := by
  apply Changes.grows
  refine apply_changes hv call (.inl hfile) (fun _ _ => trivial) (.inl trivial) ?_
  cases call with
  | rename fd fn td tn => exact fun _ _ _ _ => trivial
  | _ => trivial

theorem updateFileSize_grows (v : VfsManager) (i size : Nat) : Grows g v (v.updateFileSize i size) := by
  intro j
  have hj : (v.updateFileSize i size).nodes j = _ := modifyNode_nodes v i _ j
  split_ifs at hj with hji
  · subst hji
    cases hn : v.nodes j with
    | none =>
      rw [hn] at hj
      exact .absent hn hj
    | some n =>
      rw [hn] at hj
      exact .kept hn hj rfl rfl id
  · exact .same hj

/-! ## Creating a file -/

/-- A node that is put in for itself, or is new, changes the fate of no other. -/
theorem Grows.put (h : Grows g v v') {node : VfsNode}
    (hnode : ∀ m, v'.nodes node.id = some m → node.oid = m.oid ∧ node.isDir = m.isDir)
    (hnodes : ∀ j, v''.nodes j = if j = node.id then some node else v'.nodes j) {i : Nat} (hi : i ≠ node.id) :
    Fate g v v'' i := by
  have hsame : v''.nodes i = v'.nodes i := by rw [hnodes, if_neg hi]
  rcases h i with ⟨hn, hn'⟩ | ⟨hn, hn', hoid, hdir, hlive⟩ | @⟨n', hn, hn', hnew⟩
  · exact .absent hn (hsame.trans hn')
  · exact .kept hn (hsame.trans hn') hoid hdir hlive
  · refine .appears hn (hsame.trans hn') (hnew.imp_right ?_)
    rintro ⟨d, dir, e, hd, hisDir, he, hrest⟩
    by_cases hdn : d = node.id
    · obtain ⟨hoid, hkind⟩ := hnode dir (hdn ▸ hd)
      exact ⟨node.id, node, e, by rw [hnodes, if_pos rfl], hkind.trans hisDir, hoid ▸ he, hrest⟩
    · exact ⟨d, dir, e, by rw [hnodes, if_neg hdn, hd], hisDir, he, hrest⟩

/-- A new file, or the node under its name that is used again. -/
theorem createFile_cases (hv : v.WellFormed) (d : Nat) (name : Str) (mode : TreeEntryMode) :
    (∃ e, (v.createFile g d name mode).1 = .error e ∧ Grows g v (v.createFile g d name mode).2) ∨
    ∃ node, (v.createFile g d name mode).1 = .ok node ∧
      (v.createFile g d name mode).2.nodes node.id = some node ∧
      ∀ i, i ≠ node.id → Fate g v (v.createFile g d name mode).2 i := by
  have hpop : Grows g v (v.ensureDirPopulated g d).2 := (ensureDirPopulated_changes hv d).grows
  unfold createFile
  split
  · rename_i e w h
    rw [h] at hpop
    exact .inl ⟨e, rfl, hpop⟩
  · rename_i w h
    rw [h] at hpop
    obtain ⟨hw, ids, hids⟩ := hv.ensureDirPopulated_ok h
    split
    · rename_i i n hi
      obtain ⟨j, -, hnode⟩ := Option.bind_eq_some_iff.mp hi
      obtain ⟨m, hm, heq⟩ := Option.map_eq_some_iff.mp hnode
      simp only [Prod.mk.injEq] at heq
      obtain ⟨rfl, rfl⟩ := heq
      have hid : m.id = j := hw.id_eq j m hm
      have hnodes (revive : VfsNode → VfsNode) (k : Nat) :
          (w.modifyNode j revive).nodes k = if k = m.id then some (revive m) else w.nodes k := by
        rw [modifyNode_nodes, hm, hid]
        rfl
      refine .inr ⟨_, rfl, (hnodes _ _).trans (if_pos rfl), fun i hi => ?_⟩
      refine hpop.put (fun m' hm' => ?_) (hnodes _) hi
      rw [hid, hm, Option.some.injEq] at hm'
      exact hm' ▸ ⟨rfl, rfl⟩
    · have hnodes (node : VfsNode) (k : Nat) :
          (w.addNode node).nodes k = if k = node.id then some node else w.nodes k := insertNode_nodes _ _ k
      refine .inr ⟨_, rfl, (hnodes _ _).trans (if_pos rfl), fun i hi => ?_⟩
      refine hpop.put (fun m hm => ?_) (hnodes _) hi
      rw [hw.not_node le_rfl] at hm
      simp at hm

end VfsManager

end GitNfs
