import GitNfs.Wal.Exact

/-! # Logs that only add

Where nothing is removed and nothing is moved, every directory that differs from its tree has a file in it that
is staged. So its tree is written again.
-/

namespace GitNfs

open VfsManager

/-- The entry neither removes nor moves. -/
def WalPayload.OnlyAdds : WalPayload → Prop
  | .remove _ => False
  | .rename _ _ => False
  | _ => True

/-- The directory has a live child that is staged. -/
def HasStaged (v : VfsManager) (staging : StagingStore) (d : Nat) : Prop :=
  ∃ i c, staging.isStaged i = true ∧ v.getNode i = some c ∧ c.parentId = d

/-- A directory that was populated shows its tree or has a staged child. -/
def Accounted (g : GitEngine) (v : VfsManager) (staging : StagingStore) : Prop :=
  ∀ d n ids, v.nodes d = some n → v.dirChildren d = some ids → ShowsTree g v d n ∨ HasStaged v staging d

variable {g : GitEngine} {v w : VfsManager} {staging staging' : StagingStore} {r r' : Replay}

/-- Nodes stay where they are, and what they are. -/
def Remains (v w : VfsManager) : Prop :=
  ∀ i c, v.nodes i = some c → ∃ c', w.nodes i = some c' ∧ c'.parentId = c.parentId ∧ c'.mode = c.mode ∧
    c'.oid = c.oid ∧ c'.isDir = c.isDir ∧ (c.isDeleted = false → c'.isDeleted = false)

theorem Remains.of_extends (h : Extends v w) : Remains v w :=
  fun i c hc => ⟨c, h i c hc, rfl, rfl, rfl, rfl, id⟩

theorem HasStaged.remains {d : Nat} (h : HasStaged v staging d) (hremains : Remains v w)
    (hstaged : ∀ i, staging.isStaged i = true → staging'.isStaged i = true) : HasStaged w staging' d := by
  obtain ⟨i, c, hi, hc, hparent⟩ := h
  obtain ⟨hnode, hlive⟩ := getNode_eq_some.mp hc
  obtain ⟨c', hc', hparent', -, -, -, hlive'⟩ := hremains i c hnode
  exact ⟨i, c', hstaged i hi, getNode_eq_some.mpr ⟨hc', hlive' hlive⟩, hparent'.trans hparent⟩

theorem VfsManager.ShowsTree.remains (hv : v.WellFormed) {d : Nat} {n n' : VfsNode} (h : ShowsTree g v d n)
    (hremains : Remains v w) (hoid : n'.oid = n.oid) (hlive : ∀ name, w.liveChild d name = v.liveChild d name) :
    ShowsTree g w d n' := by
  constructor
  · intro name e he
    rw [hoid] at he
    obtain ⟨i, c, hi, hc, hmode, hid, hkind⟩ := h.entry name e he
    obtain ⟨c', hc', -, hmode', hid', hkind', -⟩ := hremains i c hc
    exact ⟨i, c', (hlive name).trans hi, hc', hmode'.trans hmode, hid'.trans hid, hkind'.trans hkind⟩
  · intro name i c' hi hc' hne
    rw [hlive] at hi
    obtain ⟨c, hc, -⟩ := liveChild_facts hv hi
    obtain ⟨m, hm, -, -, hid, -⟩ := hremains i c (getNode_eq_some.mp hc).1
    rw [hc', Option.some.injEq] at hm
    rw [hoid]
    exact h.child name i c hi (getNode_eq_some.mp hc).1 (hid ▸ hm ▸ hne)

namespace Accounted

/-- A step that changes the children of some directories only. -/
theorem step (hv : v.WellFormed) (h : Accounted g v staging) (hremains : Remains v w)
    (hstaged : ∀ i, staging.isStaged i = true → staging'.isStaged i = true)
    (hdirs : ∀ d n ids, w.nodes d = some n → w.dirChildren d = some ids →
      ((∃ ids', v.dirChildren d = some ids') ∧ ∀ name, w.liveChild d name = v.liveChild d name) ∨
        ShowsTree g w d n ∨ HasStaged w staging' d) : Accounted g w staging' := by
  intro d n ids hn hids
  rcases hdirs d n ids hn hids with ⟨⟨ids', hids'⟩, hlive⟩ | hdone
  · obtain ⟨-, ⟨m, hm, -⟩, -⟩ := hv.listed d ids' hids'
    obtain ⟨m', hm', -, -, hoid, -⟩ := hremains d m hm
    rw [hn, Option.some.injEq] at hm'
    subst hm'
    exact (h d m ids' hm hids').imp (fun hshows => hshows.remains hv hremains hoid hlive)
      fun hhas => hhas.remains hremains hstaged
  · exact hdone

theorem new (g : GitEngine) (rootOid : Str) (staging : StagingStore) :
    Accounted g (VfsManager.new rootOid) staging := fun _ _ _ _ hids => by cases hids

theorem ensureDirPopulated (hv : v.WellFormed) (h : Accounted g v staging) (d : Nat) :
    Accounted g (v.ensureDirPopulated g d).2 staging := by
  obtain ⟨ids, -, heq⟩ | ⟨dir, hd, hdir, hisDir, heq⟩ | ⟨e, heq⟩ := ensureDirPopulated_cases g v d <;> rw [heq]
  · exact h
  · have hkeep : Extends v (v.populate g d dir.oid) := fun i n hn => populate_nodes_old hv hd hn
    refine h.step hv (.of_extends hkeep) (fun _ h => h) fun d' n ids hn hids => ?_
    by_cases hsame : d' = d
    · subst hsame
      rw [hkeep d' dir hdir, Option.some.injEq] at hn
      exact .inr (.inl (hn ▸ populate_showsTree hv dir hd))
    · rw [populate_dirChildren (hv.unmapped hd), if_neg hsame] at hids
      exact .inl ⟨⟨ids, hids⟩, populate_liveChild_ne hv hd hsame⟩
  · exact h

theorem lookup (hv : v.WellFormed) (h : Accounted g v staging) (d : Nat) (name : Str) :
    Accounted g (v.lookup g d name).2 staging := by
  rcases lookup_state (g := g) hv d name with heq | heq <;> rw [heq]
  · exact h
  · exact h.ensureDirPopulated hv d

theorem lookupPath (hv : v.WellFormed) (h : Accounted g v staging) (path : Str) :
    Accounted g (v.lookupPath g path).2 staging := by
  rw [lookupPath_eq]
  generalize rootInode = curr
  generalize components path = parts
  induction parts generalizing v curr with
  | nil => exact h
  | cons part parts ih =>
    rw [lookupParts]
    split_ifs
    · exact ih hv h curr
    · have hlookup := h.lookup hv curr part
      have hv' := hv.lookup (g := g) curr part
      rcases hpart : v.lookup g curr part with ⟨_ | id, w⟩ <;> rw [hpart] at hlookup hv'
      · exact hlookup
      · exact ih hv' hlookup id

/-- A new node, under a name that no live node has, where the tree has none either. -/
theorem addNode (hv : v.WellFormed) (h : Accounted g v staging) {n : VfsNode} {ids : List Nat}
    (hid : n.id = v.nextInode) (hids : v.dirChildren n.parentId = some ids) (hlive : n.isDeleted = false)
    (hstaged : ∀ i, staging.isStaged i = true → staging'.isStaged i = true)
    (hnew : staging'.isStaged n.id = true ∨
      n.oid = [] ∧ v.liveChild n.parentId n.name = none) : Accounted g (v.addNode n) staging' := by
  have hkeep : Extends v (v.addNode n) := by
    intro i c hc
    have hfresh := hv.fresh i c hc
    unfold VfsManager.addNode
    rw [pushChild_nodes, insertNode_nodes, if_neg (by omega)]
    exact hc
  have hnode : (v.addNode n).nodes n.id = some n := by
    unfold VfsManager.addNode
    rw [pushChild_nodes, insertNode_nodes, if_pos rfl]
  have hmap (k : Nat × Str) : (v.addNode n).childMap k =
      if k = (n.parentId, n.name) then some n.id else v.childMap k := insertNode_childMap _ _ k
  have hsame {d : Nat} {name : Str} (hne : (d, name) ≠ (n.parentId, n.name)) :
      (v.addNode n).liveChild d name = v.liveChild d name := by
    unfold VfsManager.liveChild
    rw [hmap, if_neg hne]
    cases hi : v.childMap (d, name) with
    | none => rfl
    | some i =>
      obtain ⟨c, hc, -⟩ := mapped_node hv hi
      simp only [VfsManager.getNode, hc, hkeep i c hc]
  refine h.step hv (.of_extends hkeep) hstaged fun d m ids' hm hids' => ?_
  by_cases hd : d = n.parentId
  · rcases hnew with hstage | ⟨hoid, hfree⟩
    · exact .inr (.inr ⟨n.id, n, hstage, getNode_eq_some.mpr ⟨hnode, hlive⟩, hd.symm⟩)
    · obtain ⟨-, ⟨m', hm', -⟩, -⟩ := hv.listed n.parentId ids hids
      rw [hd, hkeep _ m' hm', Option.some.injEq] at hm
      subst hm
      refine .inr ((h n.parentId m' ids hm' hids).imp (fun hshows => ?_) fun hhas => ?_)
      · constructor
        · intro name e he
          obtain ⟨i, c, hi, hc, hrest⟩ := hshows.entry name e he
          refine ⟨i, c, ?_, hkeep i c hc, hrest⟩
          rw [hd, hsame (fun hk => ?_), hi]
          rw [(Prod.mk.inj hk).2, hfree] at hi
          cases hi
        · intro name i c hi hc hne
          by_cases hname : name = n.name
          · obtain ⟨hmapped, -⟩ := liveChild_eq_some.mp hi
            rw [hd, hname, hmap, if_pos rfl, Option.some.injEq] at hmapped
            rw [← hmapped, hnode, Option.some.injEq] at hc
            exact absurd (hc ▸ hoid) hne
          · rw [hd, hsame (fun hk => hname (Prod.mk.inj hk).2)] at hi
            obtain ⟨c', hc', -⟩ := liveChild_facts hv hi
            obtain ⟨hold, -⟩ := getNode_eq_some.mp hc'
            rw [hkeep i c' hold, Option.some.injEq] at hc
            exact hshows.child name i c hi (hc ▸ hold) hne
      · rw [hd]
        exact hhas.remains (.of_extends hkeep) hstaged
  · refine .inl ⟨⟨ids', ?_⟩, fun name => hsame fun hk => hd (Prod.mk.inj hk).1⟩
    unfold VfsManager.addNode at hids'
    rw [pushChild_dirChildren, if_neg hd] at hids'
    exact hids'

theorem mkdir (hempty : treeEntries g [] = []) (hv : v.WellFormed) (h : Accounted g v staging) (d : Nat) {name : Str}
    (hfree : (v.ensureDirPopulated g d).2.liveChild d name = none) : Accounted g (v.mkdir g d name).2 staging := by
  have hpop := h.ensureDirPopulated hv d
  unfold VfsManager.mkdir
  split
  · rename_i heq
    rwa [heq] at hpop
  · rename_i v₁ heq
    rw [heq] at hpop hfree
    obtain ⟨hv₁, ids, hids⟩ := hv.ensureDirPopulated_ok heq
    have hmade := hpop.addNode (n := ⟨v₁.nextInode, d, name, [], .directory, true, 4096, false⟩) hv₁ rfl hids rfl
      (fun _ h => h) (.inr ⟨rfl, hfree⟩)
    have hadded := hv₁.addNode (n := ⟨v₁.nextInode, d, name, [], .directory, true, 4096, false⟩) rfl hids
    refine hmade.step hadded (.of_extends fun _ _ h => h) (fun _ h => h) fun d' n ids' hn hids' => ?_
    by_cases hnew : d' = v₁.nextInode
    · -- the new directory has neither entries nor children
      subst hnew
      have hnode : n = ⟨v₁.nextInode, d, name, [], .directory, true, 4096, false⟩ := by
        rw [setDirChildren_nodes] at hn
        unfold VfsManager.addNode at hn
        rw [pushChild_nodes, insertNode_nodes, if_pos rfl] at hn
        exact (Option.some.inj hn).symm
      refine .inr (.inl ⟨fun name' e he => ?_, fun name' i c hi _ _ => ?_⟩)
      · rw [hnode, hempty] at he
        cases he
      · obtain ⟨hmap, -⟩ := liveChild_eq_some.mp hi
        have hold : v₁.childMap (v₁.nextInode, name') = none := hv₁.unmapped (hv₁.unlisted le_rfl) name'
        obtain ⟨-, ⟨m, hm, -⟩, -⟩ := hv₁.listed d ids hids
        have hd := hv₁.fresh d m hm
        rw [setDirChildren_childMap] at hmap
        unfold VfsManager.addNode at hmap
        rw [pushChild_childMap, insertNode_childMap, if_neg (fun hk => ?_)] at hmap
        · exact absurd (hmap.symm.trans hold) (by simp)
        · have := (Prod.mk.inj hk).1
          simp only at this
          omega
    · rw [setDirChildren_dirChildren, if_neg hnew] at hids'
      exact .inl ⟨⟨ids', hids'⟩, fun name => rfl⟩

theorem ensureDirs (hempty : treeEntries g [] = []) (hv : v.WellFormed) (h : Accounted g v staging) (curr : Nat)
    (parts : List Str) : Accounted g (v.ensureDirs g curr parts).2 staging := by
  induction parts generalizing v curr with
  | nil => exact h
  | cons part parts ih =>
    rw [VfsManager.ensureDirs]
    have hlookup := h.lookup hv curr part
    have hv' := hv.lookup (g := g) curr part
    rcases hpart : v.lookup g curr part with ⟨e | id, v₁⟩ <;> rw [hpart] at hlookup hv' <;> simp only
    · have hmade := hlookup.mkdir hempty hv' curr (lookup_error hv hpart)
      have hv'' := hv'.mkdir (g := g) curr part
      rcases hdir : v₁.mkdir g curr part with ⟨e' | node, v₂⟩ <;> rw [hdir] at hmade hv'' <;> simp only
      · exact hmade
      · exact ih hv'' hmade node.id
    · exact ih hv' hlookup id

theorem ensureParentDirs (hempty : treeEntries g [] = []) (hv : v.WellFormed) (h : Accounted g v staging)
    (path : Str) : Accounted g (v.ensureParentDirs g path).2 staging := by
  have hdirs := h.ensureDirs hempty hv rootInode (components (trimMatches '/' path)).dropLast
  unfold VfsManager.ensureParentDirs
  simp only
  split
  · exact h
  · split <;> rename_i heq <;> rwa [heq] at hdirs

theorem updateFileSize (hv : v.WellFormed) (h : Accounted g v staging) (id size : Nat)
    (hstaged : ∀ i, staging.isStaged i = true → staging'.isStaged i = true) :
    Accounted g (v.updateFileSize id size) staging' := by
  refine h.step hv (fun i c hc => ?_) hstaged fun d n ids _ hids => .inl ⟨⟨ids, hids⟩, fun name => ?_⟩
  · unfold VfsManager.updateFileSize
    rw [modifyNode_nodes]
    split_ifs with hi
    · exact ⟨{ c with size := size }, by rw [← hi, hc, Option.map_some], rfl, rfl, rfl, rfl, fun h => h⟩
    · exact ⟨c, hc, rfl, rfl, rfl, rfl, fun h => h⟩
  · have hnode (i : Nat) : ((v.updateFileSize id size).getNode i).isSome = (v.getNode i).isSome := by
      unfold VfsManager.getNode VfsManager.updateFileSize
      rw [modifyNode_nodes]
      split_ifs with hi
      · rw [hi]
        rcases v.nodes id with _ | n
        · rfl
        · cases hdel : n.isDeleted <;> simp [hdel]
      · rfl
    unfold VfsManager.liveChild
    rw [show (v.updateFileSize id size).childMap = v.childMap from rfl]
    rcases v.childMap (d, name) with _ | i
    · rfl
    · have hsome := hnode i
      simp only
      rcases ha : v.getNode i with _ | n <;> rcases hb : (v.updateFileSize id size).getNode i with _ | n' <;>
        rw [ha, hb] at hsome <;> first | rfl | cases hsome

end Accounted

namespace Replay

theorem createAt_accounted (hempty : treeEntries g [] = []) (hv : r.vfs.WellFormed)
    (h : Accounted g r.vfs r.staging) {path : Str} {mode : TreeEntryMode} {id : Nat}
    (hat : r.createAt g path mode = .ok (id, r')) : r'.vfs.WellFormed ∧ Accounted g r'.vfs r'.staging := by
  have hparents := h.ensureParentDirs hempty hv path
  have hv₁ := hv.ensureParentDirs (g := g) path
  unfold createAt at hat
  split at hat
  · simp at hat
  · rename_i parentId name v₁ hparent
    rw [hparent] at hparents hv₁
    have hpop := hparents.ensureDirPopulated hv₁ parentId
    have hv₂ := hv₁.createFile (g := g) parentId name mode
    split at hat
    · simp at hat
    · rename_i node v₂ hcreate
      rw [hcreate] at hv₂
      simp only [StagingStore.createFile_ok, Except.ok.injEq, Prod.mk.injEq] at hat
      obtain ⟨rfl, rfl⟩ := hat
      refine ⟨hv₂, ?_⟩
      have hmore := (StagesMore.stored r.staging node.id []).staged
      have hstaged := stored_isStaged r.staging node.id []
      unfold VfsManager.createFile at hcreate
      split at hcreate
      · simp at hcreate
      · rename_i w heq
        rw [heq] at hpop
        obtain ⟨hw, ids, hids⟩ := hv₁.ensureDirPopulated_ok heq
        split at hcreate
        · -- the node under the name is used again
          rename_i i n hi
          obtain ⟨j, hj, hnode⟩ := Option.bind_eq_some_iff.mp hi
          obtain ⟨m, hm, hpair⟩ := Option.map_eq_some_iff.mp hnode
          simp only [Prod.mk.injEq] at hpair
          obtain ⟨rfl, rfl⟩ := hpair
          simp only [Prod.mk.injEq, Except.ok.injEq] at hcreate
          obtain ⟨rfl, rfl⟩ := hcreate
          simp only at hstaged hmore ⊢
          have hid : m.id = j := hw.id_eq j m hm
          rw [hid] at hstaged hmore ⊢
          obtain ⟨m', hm', hparent', -, -⟩ := mapped_node hw hj
          rw [hm, Option.some.injEq] at hm'
          subst hm'
          refine hpop.step hw (fun k c hc => ?_) hmore fun d n ids' _ hids' => ?_
          · rw [modifyNode_nodes]
            split_ifs with hk
            · rw [← hk, hc, Option.map_some]
              exact ⟨_, rfl, rfl, rfl, rfl, rfl, fun _ => rfl⟩
            · exact ⟨c, hc, rfl, rfl, rfl, rfl, fun h => h⟩
          · by_cases hd : d = parentId
            · refine .inr (.inr ⟨j, { m with isDeleted := false, size := 0 }, hstaged, ?_, hparent'.trans hd.symm⟩)
              refine getNode_eq_some.mpr ⟨?_, rfl⟩
              rw [modifyNode_nodes, if_pos rfl, hm, Option.map_some]
            · refine .inl ⟨⟨ids', hids'⟩, fun name' => ?_⟩
              unfold VfsManager.liveChild
              rw [modifyNode_childMap]
              cases hk : w.childMap (d, name') with
              | none => rfl
              | some k =>
                have hne : k ≠ j := fun hkj => hd (Prod.mk.inj (mapped_unique hw (hkj ▸ hk) hj)).1
                simp only [VfsManager.getNode, modifyNode_nodes, if_neg hne]
        · simp only [Prod.mk.injEq, Except.ok.injEq] at hcreate
          obtain ⟨rfl, rfl⟩ := hcreate
          exact hpop.addNode (n := ⟨w.nextInode, parentId, name, [], mode, false, 0, false⟩) hw rfl hids rfl hmore
            (.inl hstaged)

theorem writeNode_accounted (hv : r.vfs.WellFormed) (h : Accounted g r.vfs r.staging) {id offset : Nat} {data : Bytes}
    (hwrite : r.writeNode g id offset data = .ok r') : Accounted g r'.vfs r'.staging := by
  unfold writeNode at hwrite
  split at hwrite
  · simp at hwrite
  · rw [StagingStore.writeAt_ok] at hwrite
    obtain rfl := Except.ok.inj hwrite
    exact h.updateFileSize hv _ _ (StagesMore.stored _ _ _).staged

theorem replayPayload_accounted (hempty : treeEntries g [] = []) (hv : r.vfs.WellFormed)
    (h : Accounted g r.vfs r.staging) {payload : WalPayload} (hadds : payload.OnlyAdds) (hfresh : payload.FreshDir g r)
    (hreplay : r.replayPayload g payload = .ok r') : Accounted g r'.vfs r'.staging := by
  have hrecord (path : Str) : Accounted g r.vfs (r.record path).staging :=
    h.step hv (.of_extends fun _ _ h => h) (StagesMore.record r.staging path).staged
      fun d n ids _ hids => .inl ⟨⟨ids, hids⟩, fun _ => rfl⟩
  cases payload with
  | header _ =>
    obtain rfl := Except.ok.inj hreplay
    exact h
  | createFile create =>
    simp only [replayPayload, replayCreateFile] at hreplay
    cases hat : createAt g (r.record create.path) create.path (createMode create.inodeType) with
    | error e => simp [hat, Except.map] at hreplay
    | ok p =>
      simp only [hat, Except.map, Except.ok.injEq] at hreplay
      exact hreplay ▸ (createAt_accounted hempty (r := r.record create.path) hv (hrecord _) hat).2
  | mkdir path =>
    have hparents := (hrecord path).ensureParentDirs hempty hv path
    have hv₁ := hv.ensureParentDirs (g := g) path
    simp only [replayPayload, replayMkdir, record_vfs] at hreplay
    split at hreplay
    · simp at hreplay
    · rename_i parentId name v₁ hpath
      rw [hpath] at hparents hv₁
      have hmade := hparents.mkdir hempty hv₁ parentId (hfresh parentId name v₁ hpath)
      split at hreplay
      · simp at hreplay
      · rename_i hdir
        rw [hdir] at hmade
        obtain rfl := Except.ok.inj hreplay
        exact hmade
  | write path offset data =>
    have hlookup := (hrecord path).lookupPath hv path
    have hv₁ := hv.lookupPath (g := g) path
    simp only [replayPayload, replayWrite, record_vfs] at hreplay
    split at hreplay
    · rename_i id v₁ hpath
      rw [hpath] at hlookup hv₁
      exact writeNode_accounted (r := { r.record path with vfs := v₁ }) hv₁ hlookup hreplay
    · rename_i e v₁ hpath
      rw [hpath] at hlookup hv₁
      split at hreplay
      · simp at hreplay
      · rename_i id r₁ hat
        obtain ⟨hv₂, hcreated⟩ := createAt_accounted hempty (r := { r.record path with vfs := v₁ }) hv₁ hlookup hat
        exact writeNode_accounted hv₂ hcreated hreplay
  | truncate path newSize =>
    have hlookup := (hrecord path).lookupPath hv path
    have hv₁ := hv.lookupPath (g := g) path
    simp only [replayPayload, replayTruncate, record_vfs] at hreplay
    split at hreplay
    · rename_i hpath
      rw [hpath] at hlookup
      obtain rfl := Except.ok.inj hreplay
      exact hlookup
    · rename_i id v₁ hpath
      rw [hpath] at hlookup hv₁
      split at hreplay
      · simp at hreplay
      · rw [StagingStore.truncate_ok] at hreplay
        obtain rfl := Except.ok.inj hreplay
        exact hlookup.updateFileSize hv₁ _ _ (StagesMore.stored _ _ _).staged
  | remove path => exact hadds.elim
  | rename fromPath toPath => exact hadds.elim

end Replay

/-! ## Over a replay -/

theorem WalPayload.OnlyAdds.removesChild {payload : WalPayload} (h : payload.OnlyAdds) : payload.RemovesChild := by
  cases payload with
  | remove path => exact h.elim
  | _ => trivial

theorem replayed_accounted (hg : g.CanonicalTrees) (hclosed : g.ClosedTrees) {rootOid : Str}
    {entries : List WalEntry}
    (hmeets : Run.Meets (replayStep g) (fun r entry => entry.Orderly g r) (Replay.new rootOid) entries)
    (hadds : ∀ entry ∈ entries, ∀ payload, entry.payload = some payload → payload.OnlyAdds)
    (hreplay : replayWalEntries g entries (Replay.new rootOid) = .ok r) :
    r.Ready g ∧ Accounted g r.vfs r.staging := by
  have hstep : ∀ (r : Replay) (entry : WalEntry) (r' : Replay), r.Ready g ∧ Accounted g r.vfs r.staging →
      (entry.Orderly g r ∧ ∀ payload, entry.payload = some payload → payload.OnlyAdds) →
      replayStep g r entry = some r' → r'.Ready g ∧ Accounted g r'.vfs r'.staging := by
    intro r entry r' h hok hstep
    refine ⟨h.1.step hg hclosed hok.1 (fun payload hpayload => (hok.2 payload hpayload).removesChild) hstep, ?_⟩
    cases hpayload : entry.payload with
    | none =>
      simp only [replayStep, hpayload, Option.some.injEq] at hstep
      exact hstep ▸ h.2
    | some payload =>
      exact Replay.replayPayload_accounted (CanonicalTrees.noEntries hg) h.1.tidy.wellFormed h.2
        (hok.2 payload hpayload) (hok.1 payload hpayload).1 ((replayStep_some hpayload).mp hstep)
  have hboth := Run.meets_and hmeets (Run.meets_of_mem _ hadds)
  exact Run.invariant hstep hboth (run_replayStep.mpr hreplay) ⟨.new g rootOid, .new g rootOid _⟩

/-- What differs from its tree is written again. -/
theorem Replay.Ready.cleanUndisturbed (h : r.Ready g) (hfiles : StagedFiles r.staging r.vfs)
    (haccounted : Accounted g r.vfs r.staging) : r.CleanUndisturbed g := by
  intro dirty hdirty path d n ids _ hn hids hclean
  refine (haccounted d n ids hn hids).resolve_right fun ⟨i, c, hi, hc, hparent⟩ => hclean ?_
  obtain ⟨-, -, -, habove⟩ := h.dirty_meets hfiles hdirty
  rw [← hparent]
  exact habove i (AList.lookup_isSome.mp hi) c hc

end GitNfs
