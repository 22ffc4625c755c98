import GitNfs.Vfs.View

/-! # What a rename moves

A rename takes one node from under its name and puts it under another. It does nothing else to what can be
seen, but for four things that it does not check: that the node is alive, that the two names differ, that
neither of them is `.` or `..`, and that no path leads back from the node to its directory.
-/

namespace GitNfs

namespace VfsManager

/-- What any calls leave of a new VFS, over whichever engines. -/
inductive Reachable : VfsManager → Prop
  | new (rootOid : Str) : Reachable (VfsManager.new rootOid)
  | call {v : VfsManager} (g : GitEngine) (call : VfsCall) (hv : Reachable v) : Reachable (call.apply g v)
  | updateFileSize {v : VfsManager} (id size : Nat) (hv : Reachable v) : Reachable (v.updateFileSize id size)

theorem Reachable.wellFormed {v : VfsManager} (h : Reachable v) : v.WellFormed := by
  induction h with
  | new rootOid => exact .new rootOid
  | call g call _ ih => exact ih.apply call
  | updateFileSize id size _ ih => exact ih.updateFileSize id size

variable {g : GitEngine} {v v' : VfsManager}

/-! ## Looking up in two states -/

theorem foldl_insertNode_congr {w : VfsManager} {k : Nat × Str} (news : List VfsNode)
    (h : w.childMap k = v.childMap k) : (news.foldl insertNode w).childMap k = (news.foldl insertNode v).childMap k := by
  induction news generalizing v w with
  | nil => exact h
  | cons n news ih =>
    apply ih
    rw [insertNode_childMap, insertNode_childMap, h]

/-- The child that a directory has once it is populated. -/
theorem populate_liveChild {d : Nat} {oid : Str} (hv : v.WellFormed) (hd : v.dirChildren d = none) (name : Str) :
    (v.populate g d oid).liveChild d name = (v.populate g d oid).childMap (d, name) := by
  rcases populate_last (g := g) oid hv hd name with ⟨-, hmap⟩ | ⟨i, e, -, hi, hmap⟩
  · rw [hmap, liveChild_of_unmapped hmap]
  · rw [hmap]
    exact liveChild_eq_some.mpr
      ⟨hmap, _, getNode_eq_some.mpr ⟨populate_nodes_new (g := g) hv hd hi, rfl⟩⟩

/-- What a lookup finds depends on the live child, and for a directory that is not populated on its tree. -/
theorem lookup_congr (hv : v.WellFormed) (hv' : v'.WellFormed) {d : Nat} {name : Str} (hdots : isDots name = false)
    (hnext : v'.nextInode = v.nextInode) (hlive : v'.liveChild d name = v.liveChild d name)
    (hlist : (v'.dirChildren d).isSome = (v.dirChildren d).isSome)
    (hnode : (v'.nodes d).map (fun n => (n.isDir, n.oid)) = (v.nodes d).map fun n => (n.isDir, n.oid)) :
    (v'.lookup g d name).1 = (v.lookup g d name).1 := by
  obtain ⟨hdot, hdotdot⟩ := isDots_eq_false.mp hdots
  unfold lookup
  rw [if_neg hdot, if_neg hdotdot, if_neg hdot, if_neg hdotdot, hlive]
  cases hi : v.liveChild d name with
  | some i => rfl
  | none =>
    cases hids : v.dirChildren d with
    | some ids =>
      rw [hids, Option.isSome_some] at hlist
      obtain ⟨ids', hids'⟩ := Option.isSome_iff_exists.mp hlist
      simp only [ensureDirPopulated_listed hids, ensureDirPopulated_listed hids', hlive, hi]
    | none =>
      rw [hids, Option.isSome_none] at hlist
      have hids' : v'.dirChildren d = none := by simpa using hlist
      unfold VfsManager.ensureDirPopulated
      simp only [hids, hids']
      cases hn : v.nodes d with
      | none =>
        rw [hn] at hnode
        simp only [Option.map_none, Option.map_eq_none_iff] at hnode
        simp only [hnode]
      | some n =>
        rw [hn] at hnode
        obtain ⟨n', hn', heq⟩ := Option.map_eq_some_iff.mp hnode
        simp only [Prod.mk.injEq] at heq
        simp only [hn', heq.1, heq.2]
        split_ifs
        · have hmap : (v'.populate g d n.oid).childMap (d, name) = (v.populate g d n.oid).childMap (d, name) := by
            rw [populate_eq (hv.unmapped hids), populate_eq (hv'.unmapped hids'), hnext]
            apply foldl_insertNode_congr
            show v'.childMap (d, name) = v.childMap (d, name)
            rw [hv.unmapped hids, hv'.unmapped hids']
          simp only [populate_liveChild hv hids, populate_liveChild hv' hids', hmap]
          split <;> rfl
        · rfl

/-- What a name leads to is what a lookup finds. -/
theorem lookup_listed {d : Nat} {ids : List Nat} {name : Str} (hdots : isDots name = false)
    (hids : v.dirChildren d = some ids) (i : Nat) :
    (v.lookup g d name).1 = .ok i ↔ v.liveChild d name = some i := by
  obtain ⟨hdot, hdotdot⟩ := isDots_eq_false.mp hdots
  unfold lookup
  rw [if_neg hdot, if_neg hdotdot, ensureDirPopulated_listed hids]
  simp only
  cases v.liveChild d name with
  | none => simp
  | some j => simp

/-! ## The tables after a rename -/

theorem remove_lists {d : Nat} {ids : List Nat} (hids : v.dirChildren d = some ids) (name : Str) (j : Nat) :
    ((v.remove g d name).2.dirChildren j).isSome = (v.dirChildren j).isSome ∧
      (v.remove g d name).2.nextInode = v.nextInode := by
  rcases remove_listed (g := g) hids name with heq | ⟨i, n, -, -, heq⟩
  · rw [heq]
    exact ⟨rfl, rfl⟩
  · rw [heq]
    refine ⟨?_, rfl⟩
    rw [setChild_dirChildren, dropChild_dirChildren, modifyNode_dirChildren]
    split_ifs with hj
    · rw [hj, Option.isSome_map]
    · rfl

/-- A rename that succeeds, from the state in which both directories are populated. -/
structure Renamed (g : GitEngine) (v v' : VfsManager) (src dst : Nat × Str) (i : Nat) (n : VfsNode) : Prop where
  wellFormed : v.WellFormed
  source : v.childMap src = some i
  node : v.nodes i = some n
  from_listed : ∃ ids, v.dirChildren src.1 = some ids
  to_listed : ∃ ids, v.dirChildren dst.1 = some ids
  childMap : ∀ k, v'.childMap k = if k = dst then some i else if k = src then none else v.childMap k
  nodes : ∀ j, v'.nodes j = if j = i then some (moved n src dst)
    else if v.childMap dst = some j then (v.nodes j).map kill else v.nodes j
  lists : ∀ d, (v'.dirChildren d).isSome = (v.dirChildren d).isSome
  nextInode : v'.nextInode = v.nextInode

theorem rename_renamed (hv : v.WellFormed) {src dst : Nat × Str}
    (h : v.rename g src.1 src.2 dst.1 dst.2 = (.ok (), v')) :
    ∃ i n, Renamed g ((v.ensureDirPopulated g src.1).2.ensureDirPopulated g dst.1).2 v' src dst i n := by
  obtain ⟨e, he, -⟩ | ⟨v₁, v₂, i, n, h₁, h₂, hi, hn, heq⟩ := rename_cases g v src.1 src.2 dst.1 dst.2
  · rw [h] at he
    simp at he
  · obtain ⟨hv₁, -⟩ := hv.ensureDirPopulated_ok h₁
    obtain ⟨hv₂, ids, hids⟩ := hv₁.ensureDirPopulated_ok h₂
    obtain ⟨-, hfrom⟩ := hv₂.child src.1 src.2 i hi
    obtain ⟨hmap, hnodes⟩ := attach_tables (g := g) src dst hv₂ hids hi hn
    rw [h] at heq
    simp only [Prod.mk.injEq, true_and] at heq
    rw [← heq] at hmap hnodes
    simp only [h₁, h₂]
    refine ⟨i, n, hv₂, hi, hn, ?_, ⟨ids, hids⟩, hmap, hnodes, fun d => ?_, ?_⟩
    · obtain ⟨ids', hids', -⟩ := hfrom
      exact ⟨ids', hids'⟩
    · rw [heq, attach, pushChild_dirChildren]
      have hkeep := (remove_lists (g := g) hids dst.2 d).1
      by_cases hd : d = dst.1
      · rw [if_pos hd, hd, hids, Option.isSome_some, Option.isSome_some]
      · rw [if_neg hd, setChild_dirChildren, modifyNode_dirChildren, setChild_dirChildren,
          dropChild_dirChildren]
        split_ifs with hd'
        · rw [Option.isSome_map, ← hd', hkeep]
        · exact hkeep
    · rw [heq]
      exact (remove_lists (g := g) hids dst.2 0).2

/-- A path that passes neither of two directories takes no name in them. -/
theorem avoids_names {i : Nat} {src dst : Nat × Str} {path : List Str} (havoid : ∀ done name rest, path = done ++ name :: rest →
      placeFrom g v (.node i) done ≠ some (.node src.1) ∧ placeFrom g v (.node i) done ≠ some (.node dst.1)) :
    Walk.Avoids (childAt g v) (cutAt fun d name => (d, name) = src ∨ (d, name) = dst) (.node i) path := by
  rw [Walk.avoids_iff]
  intro done name rest a hpath hdone hcut
  obtain ⟨hsrc, hdst⟩ := havoid done name rest hpath
  cases a with
  | entry e => exact hcut
  | node d =>
    rcases hcut with hcut | hcut
    · exact hsrc (hcut ▸ hdone)
    · exact hdst (hcut ▸ hdone)

namespace Renamed

variable {src dst : Nat × Str} {i : Nat} {n : VfsNode} (hr : Renamed g v v' src dst i n)

include hr

/-- The two names are all that a rename cuts. -/
theorem liveChild {d : Nat} {name : Str} (hsrc : (d, name) ≠ src) (hdst : (d, name) ≠ dst) :
    v'.liveChild d name = v.liveChild d name := by
  unfold VfsManager.liveChild
  rw [hr.childMap, if_neg hdst, if_neg hsrc]
  cases hj : v.childMap (d, name) with
  | none => rfl
  | some j =>
    have hne : j ≠ i := by
      rintro rfl
      exact hsrc (mapped_unique hr.wellFormed hj hr.source)
    have hkept : ¬ v.childMap dst = some j := fun hto => hdst (mapped_unique hr.wellFormed hj hto)
    simp only [getNode, hr.nodes, if_neg hne, if_neg hkept]

theorem edits : Edits (fun d name => (d, name) = src ∨ (d, name) = dst) v v' where
  nodes j m hm := by
    rw [hr.nodes]
    split_ifs with hj
    · rw [hj, hr.node, Option.some.injEq] at hm
      subst hm
      exact ⟨_, rfl, rfl, rfl, rfl⟩
    · rw [hm]
      exact ⟨_, rfl, rfl, rfl, rfl⟩
    · exact ⟨m, hm, rfl, rfl, rfl⟩
  lists d _ _ := hr.lists d
  live d _ name _ _ hcut := by
    rw [not_or] at hcut
    exact hr.liveChild hcut.1 hcut.2

/-- The parent of a node changes only for the node that is moved. -/
theorem parent {d : Nat} {m : VfsNode} (hm : v.nodes d = some m) (hne : d ≠ i) :
    ∃ m', v'.nodes d = some m' ∧ m'.parentId = m.parentId := by
  rw [hr.nodes, if_neg hne]
  split_ifs
  · rw [hm]
    exact ⟨_, rfl, rfl⟩
  · exact ⟨m, hm, rfl⟩

theorem listed_after {d : Nat} (h : ∃ ids, v.dirChildren d = some ids) : ∃ ids, v'.dirChildren d = some ids := by
  obtain ⟨ids, hids⟩ := h
  have hlist := hr.lists d
  rw [hids, Option.isSome_some] at hlist
  exact Option.isSome_iff_exists.mp hlist

end Renamed

/-! ## Moving one entry -/

/-- No path from the node leads to the directory. -/
def Outside (g : GitEngine) (v : VfsManager) (i d : Nat) : Prop :=
  ∀ path, placeFrom g v (.node i) path ≠ some (.node d)

/-- The node is under the second name and no longer under the first, alive and with all that is below it; what
was under the second name is gone, and every other name leads where it led. -/
structure MovesOne (g : GitEngine) (v v' : VfsManager) (i : Nat) (src dst : Nat × Str) : Prop where
  named : (v.lookup g src.1 src.2).1 = .ok i
  arrives : (v'.lookup g dst.1 dst.2).1 = .ok i
  live : ∃ n, v'.getNode i = some n
  subtree : SameFrom g v v' (.node i) (.node i)
  leaves : src ≠ dst → ∀ j, (v'.lookup g src.1 src.2).1 ≠ .ok j
  replaced : ∀ j, v.childMap dst = some j → j ≠ i → v'.getNode j = none
  others : ∀ d name, isDots name = false → (d, name) ≠ src → (d, name) ≠ dst →
    (v'.lookup g d name).1 = (v.lookup g d name).1

/-- What a rename does not check. A lookup of `..` does lead to the node in a directory that was removed from
below it. -/
structure CleanMove (g : GitEngine) (v : VfsManager) (i : Nat) (src dst : Nat × Str) : Prop where
  alive : ∃ n, v.getNode i = some n
  elsewhere : src ≠ dst
  fromName : isDots src.2 = false
  toDot : dst.2 ≠ ['.']
  toDotDot : dst.2 = ['.', '.'] → ∃ d, v.nodes dst.1 = some d ∧ d.parentId = i
  outOfReach : Outside g v i src.1

namespace Renamed

variable {src dst : Nat × Str} {i : Nat} {n : VfsNode} (hr : Renamed g v v' src dst i n)

include hr

theorem moved_live (halive : n.isDeleted = false) (hne : src ≠ dst) : v'.getNode i = some (moved n src dst) := by
  rw [getNode_eq_some, hr.nodes, if_pos rfl]
  exact ⟨rfl, by simp [moved, halive, hne]⟩

theorem live_moved {m : VfsNode} (h : v'.getNode i = some m) : n.isDeleted = false ∧ src ≠ dst := by
  rw [getNode_eq_some, hr.nodes, if_pos rfl] at h
  obtain ⟨heq, hlive⟩ := h
  cases heq
  simpa [moved] using hlive

theorem arrives (hc : CleanMove g v i src dst) (hlive : v'.getNode i = some (moved n src dst))
    (hout : Outside g v i dst.1) : (v'.lookup g dst.1 dst.2).1 = .ok i := by
  by_cases hdd : dst.2 = ['.', '.']
  · obtain ⟨d, hd, hparent⟩ := hc.toDotDot hdd
    have hne : dst.1 ≠ i := fun h => hout [] (h ▸ rfl)
    obtain ⟨d', hd', hparent'⟩ := hr.parent hd hne
    unfold VfsManager.lookup
    rw [if_neg hc.toDot, if_pos hdd, hd']
    simp only [hparent', hparent]
  · obtain ⟨ids, hids⟩ := hr.listed_after hr.to_listed
    refine (lookup_listed (isDots_eq_false.mpr ⟨hc.toDot, hdd⟩) hids i).mpr ?_
    refine liveChild_eq_some.mpr ⟨?_, _, hlive⟩
    rw [hr.childMap, if_pos rfl]

theorem moves (hv' : v'.WellFormed) (hc : CleanMove g v i src dst) (hout : Outside g v i dst.1) :
    MovesOne g v v' i src dst := by
  obtain ⟨m, hm⟩ := hc.alive
  obtain ⟨hnode, halive⟩ := getNode_eq_some.mp hm
  rw [hr.node, Option.some.injEq] at hnode
  subst hnode
  have hlive := hr.moved_live halive hc.elsewhere
  refine ⟨?_, hr.arrives hc hlive hout, ⟨_, hlive⟩, ?_, ?_, ?_, ?_⟩
  · obtain ⟨ids, hids⟩ := hr.from_listed
    exact (lookup_listed hc.fromName hids i).mpr (liveChild_eq_some.mpr ⟨hr.source, _, hm⟩)
  · intro path
    exact hr.edits.sees ⟨_, hr.node⟩ (avoids_names fun done _ _ _ => ⟨hc.outOfReach done, hout done⟩)
  · intro hne j hj
    obtain ⟨ids, hids⟩ := hr.listed_after hr.from_listed
    have hmapped := (liveChild_eq_some.mp ((lookup_listed hc.fromName hids j).mp hj)).1
    rw [hr.childMap, if_neg hne, if_pos rfl] at hmapped
    simp at hmapped
  · intro j hj hne
    obtain ⟨m, hm, -⟩ := mapped_node hr.wellFormed hj
    unfold getNode
    rw [hr.nodes, if_neg hne, if_pos hj, hm]
    rfl
  · intro d name hdots hsrc hdst
    apply lookup_congr hr.wellFormed hv' hdots hr.nextInode (hr.liveChild hsrc hdst) (hr.lists d)
    rw [hr.nodes]
    split_ifs with hd
    · rw [hd, hr.node]
      rfl
    · rw [Option.map_map]
      rfl
    · rfl

/-- Where a path leads back from the node to its directory, the directory has lost the node. -/
theorem subtree_outOfReach (hsame : SameFrom g v v' (.node i) (.node i)) (halive : n.isDeleted = false)
    (hne : src ≠ dst) (hdots : isDots src.2 = false) (hout : Outside g v i dst.1) : Outside g v i src.1 := by
  intro path hpath
  obtain ⟨first, hfirst, hbefore⟩ := Walk.exists_first hpath
  have hthere := hr.edits.place (g := g) (a := .node i) ⟨_, hr.node⟩
    (avoids_names fun done name rest heq => ⟨hbefore done name rest heq, hout done⟩)
  have hagain := hsame (first ++ [src.2])
  obtain ⟨ids, hids⟩ := hr.listed_after hr.from_listed
  have hchild : childAt g v (.node src.1) src.2 = some (.node i) :=
    childAt_live hr.wellFormed hdots (liveChild_eq_some.mpr ⟨hr.source, n, getNode_eq_some.mpr ⟨hr.node, halive⟩⟩)
  have hgone : childAt g v' (.node src.1) src.2 = none := by
    rw [childAt_listed hdots hids, liveChild_of_unmapped, Option.map_none]
    rw [hr.childMap, if_neg hne, if_pos rfl]
  rw [placeFrom, placeFrom, hfirst] at hthere
  simp only [placeFrom, Walk.walk_concat, hfirst, hthere, Option.bind_some, hchild] at hagain
  simp only [hgone, Option.bind_none, VfsManager.shown, hr.node, Option.map_some] at hagain
  cases hagain

theorem clean (hm : MovesOne g v v' i src dst) (hout : Outside g v i dst.1) : CleanMove g v i src dst := by
  obtain ⟨m, hlive⟩ := hm.live
  obtain ⟨halive, hne⟩ := hr.live_moved hlive
  have hfrom : isDots src.2 = false := by
    by_contra hdots
    rw [Bool.not_eq_false] at hdots
    obtain ⟨ids, hids⟩ := hr.from_listed
    obtain ⟨-, ⟨d, hd, -⟩, -⟩ := hr.wellFormed.listed _ _ hids
    obtain ⟨d', hd', -⟩ := hr.edits.nodes _ _ hd
    refine hm.leaves hne (if src.2 = ['.'] then src.1 else d'.parentId) ?_
    unfold VfsManager.lookup
    by_cases hdot : src.2 = ['.']
    · rw [if_pos hdot, if_pos hdot]
    · have hdd : src.2 = ['.', '.'] := by simpa [isDots, hdot] using hdots
      rw [if_neg hdot, if_pos hdd, if_neg hdot, hd']
  refine ⟨⟨n, getNode_eq_some.mpr ⟨hr.node, halive⟩⟩, hne, hfrom, ?_, ?_,
    hr.subtree_outOfReach hm.subtree halive hne hfrom hout⟩
  · intro hdot
    have harrives := hm.arrives
    unfold VfsManager.lookup at harrives
    rw [if_pos hdot, Except.ok.injEq] at harrives
    exact hout [] (harrives ▸ rfl)
  · intro hdd
    obtain ⟨ids, hids⟩ := hr.to_listed
    obtain ⟨-, ⟨d, hd, -⟩, -⟩ := hr.wellFormed.listed _ _ hids
    have htd : dst.1 ≠ i := fun h => hout [] (h ▸ rfl)
    obtain ⟨d', hd', hparent⟩ := hr.parent hd htd
    have harrives := hm.arrives
    unfold VfsManager.lookup at harrives
    rw [if_neg (by simp [hdd]), if_pos hdd, hd', Except.ok.injEq] at harrives
    exact ⟨d, hd, hparent ▸ harrives⟩

end Renamed

/-- A rename that fails changes nothing that can be seen. One that succeeds, to a directory that is not below the
node, moves one entry exactly when the move is clean. -/
theorem rename_moves_one (g : GitEngine) (v : VfsManager) (hv : Reachable v) (src dst : Nat × Str) :
    (∀ e v', v.rename g src.1 src.2 dst.1 dst.2 = (.error e, v') → SameTree g v v') ∧
    ∀ v' v₂, v.rename g src.1 src.2 dst.1 dst.2 = (.ok (), v') →
      v₂ = ((v.ensureDirPopulated g src.1).2.ensureDirPopulated g dst.1).2 →
      SameTree g v v₂ ∧ ∃ i, v₂.childMap src = some i ∧
        (Outside g v₂ i dst.1 → (MovesOne g v₂ v' i src dst ↔ CleanMove g v₂ i src dst)) := by
  have hfrom := ensureDirPopulated_sameTree (g := g) hv.wellFormed src.1
  have hto := ensureDirPopulated_sameTree (g := g) (hv.wellFormed.ensureDirPopulated (g := g) src.1) dst.1
  constructor
  · intro e v' h
    obtain ⟨e', -, heq | heq⟩ | ⟨v₁, v₂, i, n, -, -, -, -, heq⟩ := rename_cases g v src.1 src.2 dst.1 dst.2
    · rw [h] at heq
      cases heq
      exact hfrom
    · rw [h] at heq
      cases heq
      exact hfrom.trans hto
    · rw [h] at heq
      simp at heq
  · rintro v' v₂ h rfl
    obtain ⟨i, n, hr⟩ := rename_renamed hv.wellFormed h
    have hv' : v'.WellFormed := by
      have := hv.wellFormed.rename (g := g) src.1 src.2 dst.1 dst.2
      rwa [h] at this
    exact ⟨hfrom.trans hto, i, hr.source, fun hout =>
      ⟨fun hm => hr.clean hm hout, fun hc => hr.moves hv' hc hout⟩⟩

/-- A small base whose root was listed. -/
def smallVfs : VfsManager := (VfsCall.listDir 1).apply smallBase (VfsManager.new ['r'])

theorem smallVfs_reachable : Reachable smallVfs := .call smallBase (.listDir 1) (.new ['r'])

/-- Nothing is below the file, which has the second inode. -/
theorem smallVfs_outside : Outside smallBase smallVfs 2 1 := by
  intro path
  cases path with
  | nil => simp [placeFrom, Walk.walk]
  | cons name path =>
    have hchild : childAt smallBase smallVfs (.node 2) name = none := by
      cases hdots : isDots name with
      | true => exact childAt_dots hdots
      | false => exact childAt_unlisted (n := ⟨2, 1, ['f'], ['b'], .regularFile, false, 1048576, false⟩) hdots rfl rfl
    simp [placeFrom, Walk.walk, hchild]

theorem rename_moves_one_small :
    ∃ v', smallVfs.rename smallBase 1 ['f'] 1 ['g'] = (.ok (), v') ∧
      MovesOne smallBase smallVfs v' 2 (1, ['f']) (1, ['g']) := by
  refine ⟨_, rfl, ?_⟩
  obtain ⟨-, i, hi, hiff⟩ :=
    (rename_moves_one smallBase smallVfs smallVfs_reachable (1, ['f']) (1, ['g'])).2 _ smallVfs rfl rfl
  cases hi
  exact (hiff smallVfs_outside).mpr
    ⟨⟨_, rfl⟩, by decide, rfl, by decide, fun h => absurd h (by decide), smallVfs_outside⟩

/-- The file is renamed to itself, and a lookup does not find it any more. -/
theorem rename_loses_file :
    ∃ v' e, Reachable smallVfs ∧ (smallVfs.lookup smallBase 1 ['f']).1 = .ok 2 ∧
      smallVfs.rename smallBase 1 ['f'] 1 ['f'] = (.ok (), v') ∧ (v'.lookup smallBase 1 ['f']).1 = .error e :=
  ⟨_, _, smallVfs_reachable, rfl, rfl, rfl⟩

end VfsManager

end GitNfs
