import GitNfs.Git.Committed
import GitNfs.Vfs.Files
import GitNfs.Wal.Trees

/-! # What a commit packs

The objects of a commit are those that its tree leads to and the base does not have, if every staged file
stands in the tree.
-/

namespace GitNfs

open VfsManager

/-! ## The condition -/

/-- A node that is written into the tree: neither it nor a directory above it is deleted, is metadata, or is
noted as deleted. -/
inductive Stands (staging : StagingStore) (v : VfsManager) : Nat → Prop
  | top {i : Nat} {n : VfsNode} (hn : v.getNode i = some n) (hroot : i ≠ rootInode)
      (hname : isAppleMetadata n.name = false) (hkept : staging.isDeleted i = false)
      (hparent : n.parentId = rootInode) : Stands staging v i
  | under {i : Nat} {n : VfsNode} (hn : v.getNode i = some n) (hroot : i ≠ rootInode)
      (hname : isAppleMetadata n.name = false) (hkept : staging.isDeleted i = false)
      (hparent : Stands staging v n.parentId) : Stands staging v i

/-- What is staged and can be packed is a file that stands in the tree. -/
def StagedInTree (staging : StagingStore) (v : VfsManager) : Prop :=
  ∀ id ∈ staging.listStagedNodes, ∀ n, v.getNode id = some n → isAppleMetadata n.name = false →
    n.isDir = false ∧ Stands staging v id

namespace Stands

variable {v : VfsManager} {staging : StagingStore} {i : Nat}

theorem node (h : Stands staging v i) : ∃ n, v.getNode i = some n ∧ i ≠ rootInode ∧
    isAppleMetadata n.name = false ∧ staging.isDeleted i = false := by
  cases h with
  | top hn hroot hname hkept _ => exact ⟨_, hn, hroot, hname, hkept⟩
  | under hn hroot hname hkept _ => exact ⟨_, hn, hroot, hname, hkept⟩

theorem parent_ne (h : Stands staging v i) : ∀ n, v.getNode i = some n → n.parentId ≠ i := by
  induction h with
  | top hn hroot _ _ hparent =>
    intro n' hn'
    rw [hn, Option.some.injEq] at hn'
    rw [← hn', hparent]
    exact hroot.symm
  | under hn _ _ _ _ ih =>
    intro n' hn' hsame
    have hself := ih n'
    rw [hn, Option.some.injEq] at hn'
    subst hn'
    rw [hsame] at hself
    exact hself hn rfl

end Stands

/-! ## Staged blobs -/

/-- Tables that differ in the ids of objects only. -/
structure Stamped (v v' : VfsManager) : Prop where
  nodes : ∀ i, (v'.nodes i).map (fun n => { n with oid := [] }) = (v.nodes i).map fun n => { n with oid := [] }
  childMap : v'.childMap = v.childMap
  dirChildren : v'.dirChildren = v.dirChildren
  nextInode : v'.nextInode = v.nextInode

namespace Stamped

variable {v v₁ v' : VfsManager} {staging : StagingStore}

theorem refl (v : VfsManager) : Stamped v v := ⟨fun _ => rfl, rfl, rfl, rfl⟩

theorem trans (h : Stamped v v₁) (h' : Stamped v₁ v') : Stamped v v' :=
  ⟨fun i => (h'.nodes i).trans (h.nodes i), h'.childMap.trans h.childMap, h'.dirChildren.trans h.dirChildren,
    h'.nextInode.trans h.nextInode⟩

theorem setOid (v : VfsManager) (id : Nat) (oid : Str) : Stamped v (setOid v id oid) := by
  refine ⟨fun i => ?_, rfl, rfl, rfl⟩
  rw [GitNfs.setOid, modifyNode_nodes]
  split_ifs with hi
  · rw [hi, Option.map_map]
    rfl
  · rfl

/-- A node before and after. -/
theorem node (h : Stamped v v') {i : Nat} {n' : VfsNode} (hn : v'.nodes i = some n') :
    ∃ n, v.nodes i = some n ∧ n' = { n with oid := n'.oid } := by
  have heq := h.nodes i
  rw [hn, Option.map_some] at heq
  obtain ⟨n, hn, hsame⟩ := Option.map_eq_some_iff.mp heq.symm
  refine ⟨n, hn, ?_⟩
  have hfields := congrArg (fun m : VfsNode => { m with oid := n'.oid }) hsame
  exact hfields.symm

theorem symm (h : Stamped v v') : Stamped v' v :=
  ⟨fun i => (h.nodes i).symm, h.childMap.symm, h.dirChildren.symm, h.nextInode.symm⟩

theorem getNode (h : Stamped v v') {i : Nat} {n : VfsNode} (hn : v.getNode i = some n) :
    ∃ oid, v'.getNode i = some { n with oid := oid } := by
  obtain ⟨hnode, hlive⟩ := getNode_eq_some.mp hn
  obtain ⟨n', hn', heq⟩ := Option.map_eq_some_iff.mp ((h.nodes i).trans (by rw [hnode]; rfl))
  obtain ⟨m, hm, hsame⟩ := h.node hn'
  rw [hnode, Option.some.injEq] at hm
  subst hm
  exact ⟨n'.oid, getNode_eq_some.mpr ⟨hsame ▸ hn', hlive⟩⟩

theorem stands (h : Stamped v v') {i : Nat} (hi : Stands staging v i) : Stands staging v' i := by
  induction hi with
  | top hn hroot hname hkept hparent =>
    obtain ⟨oid, hn'⟩ := h.getNode hn
    exact .top hn' hroot hname hkept hparent
  | under hn hroot hname hkept _ ih =>
    obtain ⟨oid, hn'⟩ := h.getNode hn
    exact .under hn' hroot hname hkept ih

theorem stagedInTree (h : Stamped v v') (hstaged : StagedInTree staging v) : StagedInTree staging v' := by
  intro id hid n hn hname
  obtain ⟨oid, hold⟩ := h.symm.getNode hn
  obtain ⟨hfile, hstands⟩ := hstaged id hid _ hold hname
  exact ⟨hfile, h.stands hstands⟩

end Stamped

/-! ## What holds of the tables -/

/-- A live node is on the list of its directory. -/
def Housed (v : VfsManager) : Prop :=
  ∀ i n, v.getNode i = some n → i ≠ rootInode → ∃ ids, v.dirChildren n.parentId = some ids ∧ i ∈ ids

section

variable {lim : Limits} {g : GitEngine} {v v' : VfsManager}

theorem Housed.new (rootOid : Str) : Housed (VfsManager.new rootOid) := by
  intro i n hn hroot
  obtain ⟨hnode, -⟩ := getNode_eq_some.mp hn
  simp [VfsManager.new, hroot] at hnode

/-- A node that has changed is on a list, or it was there and is where it was. -/
theorem Housed.modify (h : Housed v) (i : Nat) (f : VfsNode → VfsNode)
    (hf : ∀ n, v.nodes i = some n → (f n).isDeleted = false → i ≠ rootInode →
      (n.isDeleted = false ∧ (f n).parentId = n.parentId) ∨
        ∃ ids, v.dirChildren (f n).parentId = some ids ∧ i ∈ ids) : Housed (v.modifyNode i f) := by
  intro j m hm hroot
  obtain ⟨hnode, hlive⟩ := getNode_eq_some.mp hm
  rw [modifyNode_nodes] at hnode
  rw [modifyNode_dirChildren]
  split_ifs at hnode with hj
  · subst hj
    obtain ⟨n, hn, rfl⟩ := Option.map_eq_some_iff.mp hnode
    rcases hf n hn hlive hroot with ⟨hold, hparent⟩ | hlisted
    · rw [hparent]
      exact h j n (getNode_eq_some.mpr ⟨hn, hold⟩) hroot
    · exact hlisted
  · exact h j m (getNode_eq_some.mpr ⟨hnode, hlive⟩) hroot

/-- The other nodes stay on a list that one leaves. -/
theorem dropChild_keeps {d i j k : Nat} (hne : j ≠ i) (h : ∃ ids, v.dirChildren k = some ids ∧ j ∈ ids) :
    ∃ ids, (v.dropChild d i).dirChildren k = some ids ∧ j ∈ ids := by
  obtain ⟨ids, hids, hmem⟩ := h
  rw [dropChild_dirChildren]
  split_ifs with hk
  · refine ⟨ids.filter fun childId => childId ≠ i, ?_, ?_⟩
    · rw [← hk, hids, Option.map_some]
    · rw [List.mem_filter, decide_eq_true_eq]
      exact ⟨hmem, hne⟩
  · exact ⟨ids, hids, hmem⟩

theorem pushChild_keeps {d i j k : Nat} (h : ∃ ids, v.dirChildren k = some ids ∧ j ∈ ids) :
    ∃ ids, (v.pushChild d i).dirChildren k = some ids ∧ j ∈ ids := by
  obtain ⟨ids, hids, hmem⟩ := h
  rw [pushChild_dirChildren]
  split_ifs with hk
  · refine ⟨_, rfl, List.mem_append_left _ ?_⟩
    rw [← hk, hids]
    exact hmem
  · exact ⟨ids, hids, hmem⟩

theorem pushChild_listed (v : VfsManager) (d i : Nat) :
    ∃ ids, (v.pushChild d i).dirChildren d = some ids ∧ i ∈ ids := by
  rw [pushChild_dirChildren, if_pos rfl]
  exact ⟨_, rfl, List.mem_append_right _ List.mem_cons_self⟩

theorem Housed.addNode (h : Housed v) (n : VfsNode) : Housed (v.addNode n) := by
  intro j m hm hroot
  obtain ⟨hnode, hlive⟩ := getNode_eq_some.mp hm
  unfold VfsManager.addNode at hnode ⊢
  rw [pushChild_nodes, insertNode_nodes] at hnode
  split_ifs at hnode with hj
  · rw [← Option.some.inj hnode, hj]
    exact pushChild_listed _ _ _
  · exact pushChild_keeps (h j m (getNode_eq_some.mpr ⟨hnode, hlive⟩) hroot)

theorem Housed.remove (h : Housed v) (d i : Nat) (name : Str) :
    Housed (((v.modifyNode i kill).dropChild d i).setChild d name none) := by
  intro j m hm hroot
  obtain ⟨hnode, hlive⟩ := getNode_eq_some.mp hm
  rw [setChild_nodes, dropChild_nodes, modifyNode_nodes] at hnode
  rw [setChild_dirChildren]
  split_ifs at hnode with hj
  · obtain ⟨n, -, rfl⟩ := Option.map_eq_some_iff.mp hnode
    simp [kill] at hlive
  · exact dropChild_keeps hj (h j m (getNode_eq_some.mpr ⟨hnode, hlive⟩) hroot)

theorem Housed.move (h : Housed v) (src dst : Nat × Str) (i : Nat) :
    Housed (((v.dropChild src.1 i).setChild src.1 src.2 none).attach i dst.1 dst.2) := by
  intro j m hm hroot
  obtain ⟨hnode, hlive⟩ := getNode_eq_some.mp hm
  unfold attach at hnode ⊢
  rw [pushChild_nodes, setChild_nodes, modifyNode_nodes, setChild_nodes, dropChild_nodes] at hnode
  split_ifs at hnode with hj
  · obtain ⟨n, -, rfl⟩ := Option.map_eq_some_iff.mp hnode
    rw [hj]
    exact pushChild_listed _ _ _
  · exact pushChild_keeps (dropChild_keeps hj (h j m (getNode_eq_some.mpr ⟨hnode, hlive⟩) hroot))

theorem Housed.update (hv : v.WellFormed) (h : Housed v) (hupdate : Update lim g v v') : Housed v' := by
  cases hupdate with
  | @populate d dir hd hdir hisDir =>
    intro i n hn hroot
    obtain ⟨hnode, hlive⟩ := getNode_eq_some.mp hn
    rw [populate_dirChildren (hv.unmapped hd)]
    rcases populate_nodes_cases hv hd hnode with hold | ⟨k, e, he, rfl, rfl⟩
    · obtain ⟨ids, hids, hmem⟩ := h i n (getNode_eq_some.mpr ⟨hold, hlive⟩) hroot
      rw [if_neg]
      · exact ⟨ids, hids, hmem⟩
      · intro hsame
        rw [hsame, hd] at hids
        cases hids
    · obtain ⟨hk, -⟩ := List.getElem?_eq_some_iff.mp he
      rw [entryNode, if_pos rfl]
      refine ⟨_, rfl, List.mem_range'_1.mpr ?_⟩
      omega
  | @revive d name i n hi hn =>
    obtain ⟨⟨m, ⟨-, hm, hparent⟩, -⟩, hlisted⟩ := hv.child d name i hi
    refine h.modify i _ fun n' hn' _ _ => .inr ?_
    rw [hm, Option.some.injEq] at hn'
    rw [← hn', hparent]
    exact hlisted
  | file hids hname hmode hfree => exact h.addNode _
  | @dir d name ids hids hname hfree =>
    intro j m hm hroot
    obtain ⟨ids', hids', hmem⟩ := h.addNode _ j m hm hroot
    rw [setDirChildren_dirChildren, if_neg]
    · exact ⟨ids', hids', hmem⟩
    · have hparent : ∃ p, v.nodes m.parentId = some p := by
        obtain ⟨hnode, -⟩ := getNode_eq_some.mp hm
        unfold VfsManager.addNode at hnode
        rw [setDirChildren_nodes, pushChild_nodes, insertNode_nodes] at hnode
        split_ifs at hnode
        · obtain ⟨-, ⟨p, hp, -⟩, -⟩ := hv.listed d ids hids
          rw [← Option.some.inj hnode]
          exact ⟨p, hp⟩
        · obtain ⟨p, hp, -⟩ := hv.parent j m hnode
          exact ⟨p, hp⟩
      obtain ⟨p, hp⟩ := hparent
      exact (hv.fresh _ p hp).ne
  | remove hids hi hn => exact h.remove _ _ _
  | @rename fd fn td tn i n ids hids hi hn hname =>
    have hremoved : Housed (v.remove g td tn).2 := by
      rcases remove_listed (g := g) hids tn with heq | ⟨j, n', -, -, heq⟩ <;> rw [heq]
      · exact h
      · exact h.remove td j tn
    exact hremoved.move (fd, fn) (td, tn) i
  | resize i size => exact h.modify i _ fun n _ hlive _ => .inl ⟨hlive, rfl⟩

end

/-! ## What the nodes have -/

/-- A node that a tree can hold, with an id that is known. -/
structure Sourced (known : Str → Prop) (n : VfsNode) : Prop where
  entrant : Entrant n
  oid : n.oid = [] ∨ known n.oid

/-- Names without a NUL, and anything else that an entry asks for. -/
def packLimits : Limits where
  name := fun name => Char.ofNat 0 ∉ name
  mode := fun _ => True
  shadow := True

/-- What a commit is packed from: tables of which every node is on a list and has an id that is known. -/
structure Filed (known : Str → Prop) (v : VfsManager) : Prop where
  wellFormed : v.WellFormed
  housed : Housed v
  each : v.Each (Sourced known)

section

variable {g : GitEngine} {v v' : VfsManager} {known : Str → Prop}

theorem GitEngine.ParsedTrees.holds (hg : g.ParsedTrees) (hknown : ∀ oid, g.Has oid → known oid) :
    Holds packLimits g (Sourced known) where
  entry := by
    intro oid e he d i
    unfold treeEntries at he
    split at he
    · rename_i t ht
      obtain ⟨data, hparse⟩ := hg oid t ht
      obtain ⟨hname, hoid⟩ := parse_mem data t hparse e he
      exact ⟨⟨hname, .inr hoid⟩, .inr (hknown _ (.inr ⟨oid, t, ht, List.mem_map_of_mem he⟩))⟩
    · exact absurd he List.not_mem_nil
  file := fun _ _ _ _ hname _ => ⟨⟨hname, .inl rfl⟩, .inl rfl⟩
  dir := fun _ _ _ hname => ⟨⟨hname, .inl rfl⟩, .inl rfl⟩
  state := fun _ hn _ _ => ⟨⟨hn.entrant.name, hn.entrant.oid⟩, hn.oid⟩
  place := fun _ hn _ _ hname => ⟨⟨hname, hn.entrant.oid⟩, hn.oid⟩

namespace Filed

theorem new (known : Str → Prop) (rootOid : Str) : Filed known (VfsManager.new rootOid) :=
  ⟨.new rootOid, .new rootOid, .new rootOid⟩

theorem updates (hg : g.ParsedTrees) (hknown : ∀ oid, g.Has oid → known oid) (h : Filed known v)
    (hupdates : Updates packLimits g v v') : Filed known v' where
  wellFormed := hupdates.wellFormed h.wellFormed
  housed := hupdates.keeps (fun _ _ hv hupdate hh => hh.update hv hupdate) h.housed
  each := hupdates.keeps (fun _ _ hv hupdate he => he.update (hg.holds hknown) hv hupdate) h.each

theorem mono {known' : Str → Prop} (h : Filed known v) (hknown : ∀ oid, known oid → known' oid) :
    Filed known' v where
  wellFormed := h.wellFormed
  housed := h.housed
  each := fun i n hn hroot => ⟨(h.each i n hn hroot).entrant, (h.each i n hn hroot).oid.imp_right (hknown _)⟩

theorem setOid (h : Filed known v) (id : Nat) {oid : Str} (hoid : IsOid oid) (hknown : known oid) :
    Filed known (setOid v id oid) where
  wellFormed := h.wellFormed.modifyNode id _ (fun _ => ⟨rfl, rfl, rfl, rfl⟩) fun _ _ => rfl
  housed := h.housed.modify id _ fun _ _ hlive _ => .inl ⟨hlive, rfl⟩
  each := h.each.modify id fun _ hn => ⟨⟨hn.entrant.name, .inr hoid⟩, .inr hknown⟩

end Filed

/-- Every object is the content of a staged node that has its id. -/
def StagedObjects (staging : StagingStore) (v : VfsManager) (objs : NewObjects) : Prop :=
  ∀ o obj, objs.lookup o = some obj → ∃ id ∈ staging.listStagedNodes, ∃ n content, v.getNode id = some n ∧
    isAppleMetadata n.name = false ∧ staging.getStagedContent id = .ok (some content) ∧ n.oid = o ∧
    o = computeGitSha1 .blob content ∧ obj = ⟨o, .blob, content⟩

theorem StagedObjects.stamp {staging : StagingStore} {objs : NewObjects} {id : Nat} {n : VfsNode} {content : Bytes}
    (h : StagedObjects staging v objs) (hid : id ∈ staging.listStagedNodes) (hn : v.getNode id = some n)
    (hname : isAppleMetadata n.name = false) (hcontent : staging.getStagedContent id = .ok (some content)) :
    StagedObjects staging (setOid v id (computeGitSha1 .blob content)) (objs.insert (computeGitSha1 .blob content)
      ⟨computeGitSha1 .blob content, .blob, content⟩) := by
  have hget (j : Nat) (m : VfsNode) (hm : v.getNode j = some m) :
      (setOid v id (computeGitSha1 .blob content)).getNode j =
        some (if j = id then { m with oid := computeGitSha1 .blob content } else m) := by
    obtain ⟨hnode, hlive⟩ := getNode_eq_some.mp hm
    rw [getNode_eq_some, GitNfs.setOid, modifyNode_nodes]
    split_ifs with hj
    · rw [← hj, hnode]
      exact ⟨rfl, hlive⟩
    · exact ⟨hnode, hlive⟩
  intro o obj ho
  by_cases heq : o = computeGitSha1 .blob content
  · rw [heq, AList.lookup_insert, Option.some.injEq] at ho
    refine ⟨id, hid, _, content, hget id n hn, ?_, hcontent, ?_, heq, heq ▸ ho.symm⟩
    · rw [if_pos rfl]
      exact hname
    · rw [if_pos rfl, heq]
  · rw [AList.lookup_insert_ne heq] at ho
    obtain ⟨j, hj, m, content', hm, hmname, hmcontent, hmoid, hsha, hobj⟩ := h o obj ho
    refine ⟨j, hj, _, content', hget j m hm, ?_, hmcontent, ?_, hsha, hobj⟩
    · split_ifs
      · exact hmname
      · exact hmname
    · split_ifs with hsame
      · -- the same node is staged with the same content
        rw [hsame, hcontent, Except.ok.injEq, Option.some.injEq] at hmcontent
        rw [hsha, hmcontent]
      · exact hmoid

theorem stagedBlobs_packs {staging : StagingStore} {ids : List Nat} (hids : ∀ id ∈ ids, id ∈ staging.listStagedNodes)
    {objs objs' : NewObjects} (hv : Filed (fun oid => g.Has oid ∨ oid ∈ objs) v) (hobjs : StagedObjects staging v objs)
    (h : stagedBlobs staging ids v objs = .ok (v', objs')) :
    Stamped v v' ∧ Filed (fun oid => g.Has oid ∨ oid ∈ objs') v' ∧ StagedObjects staging v' objs' := by
  induction ids generalizing v objs with
  | nil =>
    simp only [stagedBlobs, Except.ok.injEq, Prod.mk.injEq] at h
    obtain ⟨rfl, rfl⟩ := h
    exact ⟨.refl v, hv, hobjs⟩
  | cons id ids ih =>
    have hrest := fun id' hid' => hids id' (List.mem_cons_of_mem _ hid')
    rw [stagedBlobs] at h
    split at h
    · exact ih hrest hv hobjs h
    · rename_i n hn
      split_ifs at h with hname
      · exact ih hrest hv hobjs h
      · split at h
        · simp at h
        · exact ih hrest hv hobjs h
        · rename_i content hcontent
          have hmore : ∀ oid, g.Has oid ∨ oid ∈ objs → g.Has oid ∨ oid ∈ objs.insert (computeGitSha1 .blob content)
              (⟨computeGitSha1 .blob content, .blob, content⟩ : GitObjectToPack) :=
            fun oid => Or.imp_right fun ho => (AList.mem_insert _).mpr (.inr ho)
          obtain ⟨hstamped, hfiled, hpacked⟩ := ih hrest
            ((hv.mono hmore).setOid id (computeGitSha1_isOid _ _) (.inr ((AList.mem_insert _).mpr (.inl rfl))))
            (hobjs.stamp (hids id List.mem_cons_self) hn (Bool.not_eq_true _ ▸ hname) hcontent) h
          exact ⟨(Stamped.setOid v id _).trans hstamped, hfiled, hpacked⟩

end

/-! ## The walk over the dirty directories -/

section

variable {staging : StagingStore} {v : VfsManager}

theorem dirtyWalk_step {fuel i : Nat} {dirty dirty' : List Nat} {n : VfsNode} (hn : v.getNode i = some n)
    (h : dirtyWalk v fuel i dirty = some dirty') :
    ∃ above, (∀ d ∈ dirty, d ∈ above) ∧ n.parentId ∈ above ∧
      ((n.parentId = rootInode ∨ n.parentId = i) ∧ dirty' = above ∨
        ∃ fuel', fuel = fuel' + 1 ∧ dirtyWalk v fuel' n.parentId above = some dirty') := by
  unfold dirtyWalk at h
  rw [hn] at h
  simp only at h
  refine ⟨(if n.isDir then dirty.insert n.id else dirty).insert n.parentId, fun d hd => ?_, List.mem_insert_self, ?_⟩
  · apply List.mem_insert_of_mem
    split_ifs
    · exact List.mem_insert_of_mem hd
    · exact hd
  · by_cases hstop : n.parentId = rootInode ∨ n.parentId = i
    · rw [if_pos hstop] at h
      exact .inl ⟨hstop, (Option.some.inj h).symm⟩
    · rw [if_neg hstop] at h
      split at h
      · cases h
      · exact .inr ⟨_, rfl, h⟩

theorem dirtyWalk_mono {fuel i : Nat} {dirty dirty' : List Nat} (h : dirtyWalk v fuel i dirty = some dirty') :
    ∀ d ∈ dirty, d ∈ dirty' := by
  induction fuel generalizing i dirty with
  | zero =>
    cases hn : v.getNode i with
    | none =>
      unfold dirtyWalk at h
      rw [hn] at h
      exact fun d hd => Option.some.inj h ▸ hd
    | some n =>
      obtain ⟨above, hsub, -, ⟨-, rfl⟩ | ⟨fuel', hfuel, -⟩⟩ := dirtyWalk_step hn h
      · exact hsub
      · cases hfuel
  | succ fuel ih =>
    cases hn : v.getNode i with
    | none =>
      unfold dirtyWalk at h
      rw [hn] at h
      exact fun d hd => Option.some.inj h ▸ hd
    | some n =>
      obtain ⟨above, hsub, -, ⟨-, rfl⟩ | ⟨fuel', hfuel, hwalk⟩⟩ := dirtyWalk_step hn h
      · exact hsub
      · cases hfuel
        exact fun d hd => ih hwalk d (hsub d hd)

/-- The walk from each of the ids is among the dirty directories. -/
theorem dirtyDirs_walks {ids : List Nat} {dirty : List Nat} (h : dirtyDirs v ids = some dirty) :
    ∀ id ∈ ids, ∃ before after, dirtyWalk v v.nextInode id before = some after ∧ ∀ d ∈ after, d ∈ dirty := by
  unfold dirtyDirs at h
  generalize hinit : [rootInode] = init at h
  clear hinit
  suffices hall : (∀ d ∈ init, d ∈ dirty) ∧ ∀ id ∈ ids, ∃ before after,
      dirtyWalk v v.nextInode id before = some after ∧ ∀ d ∈ after, d ∈ dirty from hall.2
  induction ids generalizing init with
  | nil =>
    rw [List.foldlM_nil] at h
    exact ⟨fun d hd => Option.some.inj h ▸ hd, fun id hid => absurd hid List.not_mem_nil⟩
  | cons id ids ih =>
    rw [List.foldlM_cons] at h
    obtain ⟨next, hwalk, hrest⟩ := Option.bind_eq_some_iff.mp h
    obtain ⟨hnext, hwalks⟩ := ih next hrest
    refine ⟨fun d hd => hnext d (dirtyWalk_mono hwalk d hd), ?_⟩
    rintro id' (_ | ⟨_, hid'⟩)
    · exact ⟨init, next, hwalk, hnext⟩
    · exact hwalks id' hid'

end

/-! ## What the root tree leads to -/

section

variable {g : GitEngine} {staging : StagingStore} {dirty : List Nat} {v w : VfsManager} {trees : List Bytes}
  {known : Str → Prop} {root : Str}

/-- A directory whose tree the root tree leads to. -/
def TreeReached (g : GitEngine) (staging : StagingStore) (dirty : List Nat) (w : VfsManager) (trees : List Bytes)
    (root : Str) (d : Nat) : Prop :=
  ∃ fuel, Deep staging dirty w (fuel + 1) d ∧ (∀ raw ∈ committedTrees staging dirty w (fuel + 1) d, raw ∈ trees) ∧
    Relation.ReflTransGen (Names g trees) root
      (computeGitSha1 .tree ((committedTrees staging dirty w (fuel + 1) d).headD []))

theorem Housed.mem_validChildren (hw : Housed w) {i : Nat} {n : VfsNode} (hwell : w.WellFormed)
    (hn : w.getNode i = some n) (hroot : i ≠ rootInode) (hname : isAppleMetadata n.name = false)
    (hkept : staging.isDeleted i = false) : n ∈ validChildren staging (w.listing n.parentId) := by
  obtain ⟨ids, hids, hmem⟩ := hw i n hn hroot
  rw [GitNfs.mem_validChildren, hwell.id_eq i n (getNode_eq_some.mp hn).1]
  refine ⟨List.mem_filterMap.mpr ⟨i, ?_, hn⟩, hname, hkept⟩
  rw [hids]
  exact hmem

/-- A dirty directory in a directory that is reached. -/
theorem TreeReached.dir (hw : Filed known w) {d : Nat} (h : TreeReached g staging dirty w trees root d) {child : VfsNode}
    (hchild : child ∈ validChildren staging (w.listing d)) (hdirty : (child.isDir && dirty.contains child.id) = true) :
    TreeReached g staging dirty w trees root child.id := by
  obtain ⟨fuel, hdeep, hsub, hreach⟩ := h
  have hnames := committedTrees_names (g := g) hw.wellFormed (fun i n hn hroot => (hw.each i n hn hroot).entrant)
    hsub hchild
  rw [childOid, if_pos hdirty] at hnames
  cases hdeep with
  | dir hchildren =>
    have hbelow := hchildren child hchild hdirty
    obtain ⟨fuel, rfl⟩ := hbelow.pos
    refine ⟨fuel, hbelow, fun raw hraw => hsub raw (mem_committedTrees_of_child hchild hdirty hraw), ?_⟩
    exact hreach.tail (hnames (computeGitSha1_isOid _ _).ne_nil)

/-- A file in a directory that is reached. -/
theorem TreeReached.file (hw : Filed known w) {d : Nat} (h : TreeReached g staging dirty w trees root d) {child : VfsNode}
    (hchild : child ∈ validChildren staging (w.listing d)) (hfile : child.isDir = false) (hne : child.oid ≠ []) :
    Relation.ReflTransGen (Names g trees) root child.oid := by
  obtain ⟨fuel, hdeep, hsub, hreach⟩ := h
  have hnames := committedTrees_names (g := g) hw.wellFormed (fun i n hn hroot => (hw.each i n hn hroot).entrant)
    hsub hchild
  rw [childOid, hfile, Bool.false_and, if_neg Bool.false_ne_true] at hnames
  exact hreach.tail (hnames hne)

/-- The directory of a node that stands in the tree and from which a walk has started. -/
theorem Stands.parent_reached (hw : Filed known w) (hv : v.WellFormed) (hlater : Later v w)
    (hroot : TreeReached g staging dirty w trees root rootInode) {i : Nat} (hi : Stands staging v i) {fuel : Nat}
    {before after : List Nat} (hwalk : dirtyWalk v fuel i before = some after) (hafter : ∀ d ∈ after, d ∈ dirty) :
    ∀ n, v.getNode i = some n → TreeReached g staging dirty w trees root n.parentId := by
  induction hi generalizing fuel before with
  | top hn _ _ _ hparent =>
    intro n' hn'
    rw [hn, Option.some.injEq] at hn'
    rw [← hn', hparent]
    exact hroot
  | @under i n hn hself hname hkept hstands ih =>
    intro n' hn'
    rw [hn, Option.some.injEq] at hn'
    subst hn'
    obtain ⟨p, hp, hpne, hpname, hpkept⟩ := hstands.node
    have hne := (Stands.under hn hself hname hkept hstands).parent_ne n hn
    obtain ⟨above, -, hmem, ⟨hstop | hstop, -⟩ | ⟨fuel', -, hwalk'⟩⟩ := dirtyWalk_step hn hwalk
    · exact absurd hstop hpne
    · exact absurd hstop hne
    · have habove := ih hwalk' p hp
      have hdirty := hafter _ (dirtyWalk_mono hwalk' _ hmem)
      obtain ⟨hpnode, -⟩ := getNode_eq_some.mp hp
      obtain ⟨q, hq, hqdir⟩ := hv.parent i n (getNode_eq_some.mp hn).1
      rw [hpnode, Option.some.injEq] at hq
      subst hq
      have hpid := hv.id_eq _ p hpnode
      have hpw : w.getNode n.parentId = some p := (hlater.getNode hpnode).trans hp
      have hchild := hw.housed.mem_validChildren hw.wellFormed hpw hpne hpname hpkept
      rw [← hpid]
      refine habove.dir hw hchild ?_
      rw [hqdir, Bool.true_and, List.contains_iff_mem, hpid]
      exact hdirty

/-- What is staged and stands in the tree is an object that the root tree leads to. -/
theorem StagedObjects.reached (hw : Filed known w) (hv : v.WellFormed) (hlater : Later v w) {ids : List Nat}
    (hdirty : dirtyDirs v ids = some dirty) (hids : ∀ id ∈ staging.listStagedNodes, id ∈ ids)
    (hstaged : StagedInTree staging v) (hroot : TreeReached g staging dirty w trees root rootInode) {objs : NewObjects}
    (h : StagedObjects staging v objs) {o : Str} {obj : GitObjectToPack} (ho : objs.lookup o = some obj) :
    obj.oid = o ∧ obj.objType = .blob ∧ Relation.ReflTransGen (Names g trees) root o := by
  obtain ⟨id, hid, n, content, hn, hname, -, rfl, hsha, rfl⟩ := h o obj ho
  obtain ⟨hfile, hstands⟩ := hstaged id hid n hn hname
  obtain ⟨-, -, hne, -, hkept⟩ := hstands.node
  obtain ⟨before, after, hwalk, hafter⟩ := dirtyDirs_walks hdirty id (hids id hid)
  have hparent := hstands.parent_reached hw hv hlater hroot hwalk hafter n hn
  have hlast : w.getNode id = some n := (hlater.getNode (getNode_eq_some.mp hn).1).trans hn
  have hchild := hw.housed.mem_validChildren hw.wellFormed hlast hne hname hkept
  refine ⟨rfl, rfl, hparent.file hw hchild hfile ?_⟩
  rw [hsha]
  exact (computeGitSha1_isOid _ _).ne_nil

end

/-! ## The objects of a commit -/

/-- The trees of the directories of a commit, whether the base has them or not. -/
def treesOfCommit (g : GitEngine) (staging : StagingStore) (v : VfsManager) : List Bytes :=
  match stagedBlobs staging staging.listStagedNodes v ∅ with
  | .error _ => []
  | .ok (v, newObjects) =>
    match dirtyDirs v (staging.listStagedNodes ++ staging.listDeletedNodes) with
    | none => []
    | some dirty =>
      match rebuildTreeRecursive g staging dirty (v.nextInode + 1) rootInode v newObjects with
      | some (.ok _, w, _) => committedTrees staging dirty w (v.nextInode + 1) rootInode
      | _ => []

/-- The objects of a commit are those that its tree leads to and the base does not have. -/
structure ClosedPack (g : GitEngine) (trees : List Bytes) (rebuilt : RebuiltObjects) : Prop where
  commit : ∃ base author timestamp message, ⟨rebuilt.commitOid, .commit,
    asBytes (commitContent rebuilt.rootTreeOid base author timestamp message)⟩ ∈ rebuilt.objects
  written : ∀ obj ∈ rebuilt.objects, obj.objType = .tree → obj.data ∈ trees
  closed : ∀ oid, Relation.ReflTransGen (Names g trees) rebuilt.rootTreeOid oid →
    (∃ obj ∈ rebuilt.objects, obj.oid = oid) ∨ g.Has oid
  minimal : ∀ obj ∈ rebuilt.objects, obj.oid = rebuilt.commitOid ∨
    Relation.ReflTransGen (Names g trees) rebuilt.rootTreeOid obj.oid

section

variable {g : GitEngine} {v : VfsManager} {staging : StagingStore} {base author message : Str} {timestamp : Nat}
  {rebuilt : RebuiltObjects}

theorem mem_values_insert {objs : NewObjects} {k : Str} {commit obj : GitObjectToPack} :
    obj ∈ (objs.insert k commit).entries.map Sigma.snd ↔ obj = commit ∨ ∃ k', k' ≠ k ∧ objs.lookup k' = some obj := by
  rw [NewObjects.mem_values]
  constructor
  · rintro ⟨k', hk'⟩
    by_cases hsame : k' = k
    · rw [hsame, AList.lookup_insert, Option.some.injEq] at hk'
      exact .inl hk'.symm
    · rw [AList.lookup_insert_ne hsame] at hk'
      exact .inr ⟨k', hsame, hk'⟩
  · rintro (rfl | ⟨k', hne, hk'⟩)
    · exact ⟨k, AList.lookup_insert _⟩
    · exact ⟨k', (AList.lookup_insert_ne hne).trans hk'⟩

theorem rebuildGitObjects_closedPack (hg : g.ParsedTrees) (hv : Filed g.Has v) (hstaged : StagedInTree staging v)
    (h : rebuildGitObjects v staging g base author message timestamp = some (.ok rebuilt)) :
    ClosedPack g (treesOfCommit g staging v) rebuilt := by
  obtain ⟨v₁, objs, dirty, w, objs', text, hblobs, hdirty, hrec, -, hobjects⟩ := rebuildGitObjects_parts h
  have htrees : treesOfCommit g staging v = committedTrees staging dirty w (v₁.nextInode + 1) rootInode := by
    unfold treesOfCommit
    rw [hblobs]
    simp only [hdirty, hrec]
  obtain ⟨hstamped, hv₁, hpacked⟩ := stagedBlobs_packs (fun _ hid => hid) (hv.mono fun _ => Or.inl)
    (fun o obj ho => by simp at ho) hblobs
  have hwrites := rebuildTreeRecursive_commits _ _ _ _ _ _ hv₁.wellFormed hrec
  have hw := hv₁.updates hg (fun _ => Or.inl) (hwrites.updates packLimits)
  have hentrant : w.Each Entrant := fun i n hn hne => (hw.each i n hn hne).entrant
  obtain ⟨raw, below, hcommitted, hroot, hadds, hdeep⟩ := hwrites.tree w (.refl w)
  rw [htrees]
  rw [← hcommitted] at hadds
  have hhead : rebuilt.rootTreeOid = computeGitSha1 .tree
      ((committedTrees staging dirty w (v₁.nextInode + 1) rootInode).headD []) := by
    rw [hcommitted, hroot, List.headD_cons]
  have hreached : TreeReached g staging dirty w (committedTrees staging dirty w (v₁.nextInode + 1) rootInode)
      rebuilt.rootTreeOid rootInode :=
    ⟨v₁.nextInode, hdeep, fun _ hraw => hraw, hhead ▸ .refl⟩
  have hobject {k : Str} {obj : GitObjectToPack} (hk : objs'.lookup k = some obj) : obj.oid = k ∧
      (obj.objType = .tree → obj.data ∈ committedTrees staging dirty w (v₁.nextInode + 1) rootInode) ∧
      Relation.ReflTransGen (Names g (committedTrees staging dirty w (v₁.nextInode + 1) rootInode))
        rebuilt.rootTreeOid k := by
    rcases hadds.only k obj hk with hblob | ⟨raw', hraw', rfl, rfl⟩
    · obtain ⟨hoid, htype, hreach⟩ := hpacked.reached hw hv₁.wellFormed hwrites.later hdirty
        (fun _ hid => List.mem_append_left _ hid) (hstamped.stagedInTree hstaged) hreached hblob
      exact ⟨hoid, fun htree => by simp [htype] at htree, hreach⟩
    · exact ⟨rfl, fun _ => hraw', hhead ▸ reach_below hw.wellFormed hentrant hdeep (fun _ hraw => hraw) raw' hraw'⟩
  have hpacks {oid : Str} (hoid : oid ∈ objs') : ∃ obj ∈ rebuilt.objects, obj.oid = oid := by
    rw [hobjects]
    by_cases hcommit : oid = rebuilt.commitOid
    · exact ⟨_, mem_values_insert.mpr (.inl rfl), hcommit.symm⟩
    · obtain ⟨obj, hobj⟩ := Option.isSome_iff_exists.mp (AList.lookup_isSome.mpr hoid)
      exact ⟨obj, mem_values_insert.mpr (.inr ⟨oid, hcommit, hobj⟩), (hobject hobj).1⟩
  refine ⟨⟨base, author, timestamp, text, hobjects ▸ mem_values_insert.mpr (.inl rfl)⟩, fun obj hobj htype => ?_,
    fun oid hreach => ?_, fun obj hobj => ?_⟩
  · rw [hobjects] at hobj
    rcases mem_values_insert.mp hobj with rfl | ⟨k, -, hk⟩
    · simp at htype
    · exact (hobject hk).2.1 htype
  · rcases hreach.cases_tail with rfl | ⟨treeOid, -, t, ht | ⟨raw', hraw', -, hparse⟩, hnamed⟩
    · rw [hhead]
      rcases hadds.packs _ hdeep.head_mem with hnew | hloaded
      · exact .inl (hpacks hnew)
      · exact .inr (.inl hloaded)
    · exact .inr (.inr ⟨treeOid, t, ht, hnamed⟩)
    · rcases committedTrees_named hw.wellFormed hentrant hdeep raw' hraw' t hparse oid hnamed with
        ⟨raw'', hraw'', rfl⟩ | ⟨hne, d, c, hc, rfl⟩
      · rcases hadds.packs raw'' hraw'' with hnew | hloaded
        · exact .inl (hpacks hnew)
        · exact .inr (.inl hloaded)
      · rcases (listing_each hw.wellFormed hw.each hc).oid with hempty | hbase | hnew
        · exact absurd hempty hne
        · exact .inr hbase
        · exact .inl (hpacks (hadds.keeps _ hnew))
  · rw [hobjects] at hobj
    rcases mem_values_insert.mp hobj with rfl | ⟨k, -, hk⟩
    · exact .inl rfl
    · obtain ⟨rfl, -, hreach⟩ := hobject hk
      exact .inr hreach

/-! ## Over a replay -/

/-- The paths of the entry have no NUL. -/
def WalEntry.Spelled (entry : WalEntry) : Prop :=
  ∀ payload, entry.payload = some payload → ∀ path ∈ payload.paths, Char.ofNat 0 ∉ path

theorem packLimits_createsWith : Replay.CreatesWith packLimits := ⟨trivial, trivial, trivial⟩

theorem Filed.replayStep (hg : g.ParsedTrees) {r r' : Replay} {entry : WalEntry} (h : Filed g.Has r.vfs)
    (hspelled : entry.Spelled) (hstep : replayStep g r entry = some r') : Filed g.Has r'.vfs := by
  cases hpayload : entry.payload with
  | none =>
    simp only [GitNfs.replayStep, hpayload, Option.some.injEq] at hstep
    exact hstep ▸ h
  | some payload =>
    refine h.updates hg (fun _ => id) (Replay.replayPayload_updates h.wellFormed packLimits_createsWith
      (fun path hpath part hpart hnul => ?_) (.inl trivial) ((replayStep_some hpayload).mp hstep))
    rw [components_trimMatches] at hpart
    obtain ⟨-, -, hchars⟩ := mem_components hpart
    exact hspelled payload hpayload path hpath (hchars _ hnul)

/-- Over a base that was read, a replay of entries without a NUL packs what its tree leads to and nothing else,
if every staged file stands in the tree. -/
theorem pack_closed_and_minimal {rootOid : Str} {entries : List WalEntry} {r : Replay} (hg : g.ParsedTrees)
    (hspelled : ∀ entry ∈ entries, entry.Spelled) (hreplay : replayWalEntries g entries (Replay.new rootOid) = .ok r)
    (hstaged : StagedInTree r.staging r.vfs)
    (hrebuild : rebuildGitObjects r.vfs r.staging g base author message timestamp = some (.ok rebuilt)) :
    ClosedPack g (treesOfCommit g r.staging r.vfs) rebuilt := by
  have hmeets : Run.Meets (replayStep g) (fun _ entry => entry.Spelled) (Replay.new rootOid) entries :=
    Run.meets_of_mem _ hspelled
  have hfiled := Run.invariant (I := fun r : Replay => Filed g.Has r.vfs)
    (fun r entry r' h hspelled hstep => h.replayStep hg hspelled hstep) hmeets (run_replayStep.mpr hreplay)
    (Filed.new g.Has rootOid)
  exact rebuildGitObjects_closedPack hg hfiled hstaged hrebuild

end

/-! ### A new directory, and a file in a directory that is removed -/

/-- Whether a node stands in the tree, looked for so far up. -/
def standsWithin (staging : StagingStore) (v : VfsManager) : Nat → Nat → Bool
  | 0, _ => false
  | fuel + 1, i =>
    match v.getNode i with
    | none => false
    | some n =>
      decide (i ≠ rootInode) && !isAppleMetadata n.name && !staging.isDeleted i &&
        (decide (n.parentId = rootInode) || standsWithin staging v fuel n.parentId)

theorem stands_of_within {staging : StagingStore} {v : VfsManager} {fuel i : Nat}
    (h : standsWithin staging v fuel i = true) : Stands staging v i := by
  induction fuel generalizing i with
  | zero => cases h
  | succ fuel ih =>
    rw [standsWithin] at h
    split at h
    · cases h
    · rename_i n hn
      simp only [Bool.and_eq_true, Bool.or_eq_true, Bool.not_eq_true', decide_eq_true_eq] at h
      obtain ⟨⟨⟨hroot, hname⟩, hkept⟩, hparent | hparent⟩ := h
      · exact .top hn hroot hname hkept hparent
      · exact .under hn hroot hname hkept (ih hparent)

def stagedWithin (staging : StagingStore) (v : VfsManager) (fuel : Nat) : Bool :=
  staging.listStagedNodes.all fun id =>
    (v.getNode id).all fun n => isAppleMetadata n.name || (!n.isDir && standsWithin staging v fuel id)

theorem stagedInTree_of_within {staging : StagingStore} {v : VfsManager} {fuel : Nat}
    (h : stagedWithin staging v fuel = true) : StagedInTree staging v := by
  intro id hid n hn hname
  have hall := List.all_eq_true.mp h id hid
  rw [hn, Option.all_some, hname, Bool.false_or, Bool.and_eq_true, Bool.not_eq_true'] at hall
  exact ⟨hall.1, stands_of_within hall.2⟩

theorem GitEngine.CanonicalTrees.parsedTrees {g : GitEngine} (hg : g.CanonicalTrees) : g.ParsedTrees := by
  intro oid t ht
  obtain ⟨es, hes⟩ := hg oid t ht
  obtain ⟨t', hparse, hget⟩ := hes.loaded
  rw [ht, Option.some.injEq] at hget
  exact ⟨_, hget ▸ hparse⟩

theorem pack_closed_and_minimal_newDir :
    ∃ r rebuilt, replayWalEntries sampleTable newDir (Replay.new sampleTopOid) = .ok r ∧
      rebuildGitObjects r.vfs r.staging sampleTable [] [] ['m'] 0 = some (.ok rebuilt) ∧
      ClosedPack sampleTable (treesOfCommit sampleTable r.staging r.vfs) rebuilt := by
  have hsome : ((replayWalEntries sampleTable newDir (Replay.new sampleTopOid)).toOption.any fun r =>
      stagedWithin r.staging r.vfs r.vfs.nextInode &&
        ((rebuildGitObjects r.vfs r.staging sampleTable [] [] ['m'] 0).bind Except.toOption).isSome) = true := by
    decide +kernel
  obtain ⟨r, hr, hall⟩ := (Option.any_eq_true _ _).mp hsome
  obtain ⟨hstaged, hrebuilt⟩ := Bool.and_eq_true_iff.mp hall
  obtain ⟨rebuilt, hrebuilt⟩ := Option.isSome_iff_exists.mp hrebuilt
  obtain ⟨res, hres, hok⟩ := Option.bind_eq_some_iff.mp hrebuilt
  rw [toOption_eq_some hok] at hres
  have hspelled : ∀ entry ∈ newDir, entry.Spelled := by
    intro entry hentry payload hpayload
    rcases List.mem_cons.mp hentry with rfl | hentry
    · obtain rfl := Option.some.inj hpayload
      decide
    · obtain rfl := List.mem_singleton.mp hentry
      obtain rfl := Option.some.inj hpayload
      decide
  exact ⟨r, rebuilt, toOption_eq_some hr, hres, pack_closed_and_minimal sampleTable_canonicalTrees.parsedTrees hspelled
    (toOption_eq_some hr) (stagedInTree_of_within hstaged) hres⟩

/-- Ids that name each other only. -/
def closedUnder (g : GitEngine) (trees : List Bytes) (oids : List Str) : Bool :=
  oids.all fun oid =>
    (g.getTree oid).all (fun t => t.oids.all oids.contains) &&
      trees.all fun raw => decide (computeGitSha1 .tree raw ≠ oid) ||
        (GitTree.parse raw).toOption.all fun t => t.oids.all oids.contains

theorem reach_of_closedUnder {g : GitEngine} {trees : List Bytes} {oids : List Str}
    (h : closedUnder g trees oids = true) {root oid : Str} (hroot : root ∈ oids)
    (hreach : Relation.ReflTransGen (Names g trees) root oid) : oid ∈ oids := by
  induction hreach with
  | refl => exact hroot
  | @tail treeOid oid _ hname ih =>
    have hall := List.all_eq_true.mp h treeOid ih
    rw [Bool.and_eq_true] at hall
    obtain ⟨t, ht | ⟨raw, hraw, hsha, hparse⟩, hoid⟩ := hname
    · have hnamed := hall.1
      rw [ht, Option.all_some] at hnamed
      exact List.contains_iff_mem.mp (List.all_eq_true.mp hnamed oid hoid)
    · have hnamed := List.all_eq_true.mp hall.2 raw hraw
      rw [decide_eq_false (not_not.mpr hsha), Bool.false_or, hparse, Except.toOption, Option.all_some] at hnamed
      exact List.contains_iff_mem.mp (List.all_eq_true.mp hnamed oid hoid)

/-- A file that was created in a directory, and the directory removed. -/
def removedDir : List WalEntry := [createEntry "a/x".toList, ⟨0, 0, some (.remove "a".toList)⟩]

def strayBlob (r : Replay) (rebuilt : RebuiltObjects) : Bool :=
  let oids := [rebuilt.rootTreeOid, hexEncode (List.replicate 20 7)]
  closedUnder sampleTable (treesOfCommit sampleTable r.staging r.vfs) oids &&
    rebuilt.objects.any fun obj => decide (obj.oid ≠ rebuilt.commitOid) && !oids.contains obj.oid

theorem pack_not_minimal : sampleTable.ParsedTrees ∧
    ∃ r rebuilt, replayWalEntries sampleTable removedDir (Replay.new sampleTopOid) = .ok r ∧
      rebuildGitObjects r.vfs r.staging sampleTable [] [] ['m'] 0 = some (.ok rebuilt) ∧
      ∃ obj ∈ rebuilt.objects, obj.oid ≠ rebuilt.commitOid ∧
        ¬ Relation.ReflTransGen (Names sampleTable (treesOfCommit sampleTable r.staging r.vfs))
          rebuilt.rootTreeOid obj.oid := by
  have hstray : ((replayWalEntries sampleTable removedDir (Replay.new sampleTopOid)).toOption.any fun r =>
      ((rebuildGitObjects r.vfs r.staging sampleTable [] [] ['m'] 0).bind Except.toOption).any (strayBlob r)) = true := by
    decide +kernel
  obtain ⟨r, hr, hany⟩ := (Option.any_eq_true _ _).mp hstray
  obtain ⟨rebuilt, hrebuilt, hany⟩ := (Option.any_eq_true _ _).mp hany
  obtain ⟨res, hres, hok⟩ := Option.bind_eq_some_iff.mp hrebuilt
  rw [toOption_eq_some hok] at hres
  unfold strayBlob at hany
  rw [Bool.and_eq_true, List.any_eq_true] at hany
  obtain ⟨hclosed, obj, hobj, hstray⟩ := hany
  rw [Bool.and_eq_true, decide_eq_true_eq, Bool.not_eq_true'] at hstray
  refine ⟨sampleTable_canonicalTrees.parsedTrees, r, rebuilt, toOption_eq_some hr, hres, obj, hobj, hstray.1, fun hreach => ?_⟩
  have hmem := reach_of_closedUnder hclosed List.mem_cons_self hreach
  rw [List.contains_eq_mem, decide_eq_false_iff_not] at hstray
  exact hstray.2 hmem

end GitNfs
