import GitNfs.Wal.Written

/-! # What is stamped and what is dirty

The blobs of the staged files, and the directories above them. Writing the trees populates directories and
changes nothing else.
-/

namespace GitNfs

open VfsManager

variable {g : GitEngine} {staging : StagingStore} {v v₁ w : VfsManager}

/-! ## Staged blobs -/

/-- The blob of a node whose object id is this one: that of its staged content, if there is any. -/
def StagingStore.blobOf (st : StagingStore) (id : Nat) (oid : Str) : Str :=
  match st.getStagedContent id with
  | .ok (some content) => computeGitSha1 .blob content
  | _ => oid

theorem StagingStore.blobOf_unstaged {i : Nat} (h : staging.isStaged i = false) (oid : Str) :
    staging.blobOf i oid = oid := by
  unfold StagingStore.blobOf StagingStore.getStagedContent
  simp [h]

/-- The node once the blobs of some ids were made. -/
def stampedNode (staging : StagingStore) (ids : List Nat) (i : Nat) (n : VfsNode) : VfsNode :=
  if i ∈ ids ∧ n.isDeleted = false ∧ isAppleMetadata n.name = false then
    { n with oid := staging.blobOf i n.oid }
  else n

section

variable (staging : StagingStore) (ids : List Nat) (i : Nat) (n : VfsNode)

@[simp] theorem stampedNode_id : (stampedNode staging ids i n).id = n.id := by unfold stampedNode; split_ifs <;> rfl

@[simp] theorem stampedNode_parentId : (stampedNode staging ids i n).parentId = n.parentId := by
  unfold stampedNode; split_ifs <;> rfl

@[simp] theorem stampedNode_name : (stampedNode staging ids i n).name = n.name := by
  unfold stampedNode; split_ifs <;> rfl

@[simp] theorem stampedNode_mode : (stampedNode staging ids i n).mode = n.mode := by
  unfold stampedNode; split_ifs <;> rfl

@[simp] theorem stampedNode_isDir : (stampedNode staging ids i n).isDir = n.isDir := by
  unfold stampedNode; split_ifs <;> rfl

@[simp] theorem stampedNode_isDeleted : (stampedNode staging ids i n).isDeleted = n.isDeleted := by
  unfold stampedNode; split_ifs <;> rfl

end

/-- The nodes and the objects that the staged files come to. -/
theorem stagedBlobs_stamps {ids : List Nat} {objs objs' : NewObjects}
    (h : stagedBlobs staging ids v objs = .ok (v₁, objs')) :
    (∀ i, v₁.nodes i = (v.nodes i).map (stampedNode staging ids i)) ∧ v₁.childMap = v.childMap ∧
      v₁.dirChildren = v.dirChildren ∧ v₁.nextInode = v.nextInode ∧
      ∀ k obj, objs'.lookup k = some obj → objs.lookup k = some obj ∨ obj.objType = .blob ∧ obj.oid = k := by
  induction ids generalizing v objs with
  | nil =>
    simp only [stagedBlobs, Except.ok.injEq, Prod.mk.injEq] at h
    obtain ⟨rfl, rfl⟩ := h
    refine ⟨fun i => ?_, rfl, rfl, rfl, fun _ _ h => .inl h⟩
    cases v.nodes i with
    | none => rfl
    | some n => simp [stampedNode]
  | cons id ids ih =>
    -- an id that is passed over is none that the others stamp, or its blob is none
    have hskip {v' : VfsManager} (hv' : ∀ i, v'.nodes i = (v.nodes i).map (stampedNode staging ids i))
        (hid : ∀ n, v.nodes id = some n → n.isDeleted = false → isAppleMetadata n.name = false →
          staging.blobOf id n.oid = n.oid) (i : Nat) :
        v'.nodes i = (v.nodes i).map (stampedNode staging (id :: ids) i) := by
      rw [hv']
      cases hn : v.nodes i with
      | none => rfl
      | some n =>
        rw [Option.map_some, Option.map_some, Option.some.injEq]
        unfold stampedNode
        by_cases hi : i = id
        · subst hi
          by_cases hlive : n.isDeleted = false ∧ isAppleMetadata n.name = false
          · rw [hid n hn hlive.1 hlive.2]
            split_ifs <;> rfl
          · rw [if_neg fun h => hlive h.2, if_neg fun h => hlive h.2]
        · simp only [List.mem_cons, hi, false_or]
    rw [stagedBlobs] at h
    split at h
    · rename_i hnone
      obtain ⟨hnodes, hrest⟩ := ih h
      refine ⟨hskip hnodes fun n hn hlive _ => ?_, hrest⟩
      rw [getNode_eq_some.mpr ⟨hn, hlive⟩] at hnone
      cases hnone
    · rename_i n hn
      obtain ⟨hnode, hlive⟩ := getNode_eq_some.mp hn
      split_ifs at h with hname
      · obtain ⟨hnodes, hrest⟩ := ih h
        refine ⟨hskip hnodes fun m hm _ hplain => ?_, hrest⟩
        rw [hnode, Option.some.injEq] at hm
        rw [← hm, hname] at hplain
        cases hplain
      · split at h
        · simp at h
        · rename_i hcontent
          obtain ⟨hnodes, hrest⟩ := ih h
          refine ⟨hskip hnodes fun m _ _ _ => ?_, hrest⟩
          unfold StagingStore.blobOf
          rw [hcontent]
        · rename_i content hcontent
          have hblob (oid : Str) : staging.blobOf id oid = computeGitSha1 .blob content := by
            unfold StagingStore.blobOf
            rw [hcontent]
          obtain ⟨hnodes, hmap, hlists, hnext, hobjs⟩ := ih h
          refine ⟨fun i => ?_, hmap, hlists, hnext, fun k obj hk => ?_⟩
          · rw [hnodes, setOid, modifyNode_nodes]
            split_ifs with hi
            · subst hi
              rw [hnode, Option.map_some, Option.map_some, Option.map_some, Option.some.injEq]
              have hhead : i ∈ i :: ids ∧ n.isDeleted = false ∧ isAppleMetadata n.name = false :=
                ⟨List.mem_cons_self, hlive, Bool.eq_false_iff.mpr hname⟩
              unfold stampedNode
              rw [if_pos hhead, hblob, hblob]
              split_ifs <;> rfl
            · cases v.nodes i with
              | none => rfl
              | some m =>
                rw [Option.map_some, Option.map_some, Option.some.injEq]
                unfold stampedNode
                simp only [List.mem_cons, hi, false_or]
          · rcases hobjs k obj hk with hold | hblob
            · by_cases heq : k = computeGitSha1 .blob content
              · rw [heq, AList.lookup_insert, Option.some.injEq] at hold
                exact .inr (hold ▸ ⟨rfl, heq.symm⟩)
              · rw [AList.lookup_insert_ne heq] at hold
                exact .inl hold
            · exact .inr hblob

/-- The content of a staged file could be read. -/
theorem stagedBlobs_contents {ids : List Nat} {objs objs' : NewObjects}
    (h : stagedBlobs staging ids v objs = .ok (v₁, objs')) {i : Nat} (hi : i ∈ ids) {n : VfsNode}
    (hn : v.getNode i = some n) (hname : isAppleMetadata n.name = false) :
    ∃ content, staging.getStagedContent i = .ok content := by
  induction ids generalizing v objs n with
  | nil => exact absurd hi List.not_mem_nil
  | cons id ids ih =>
    rw [stagedBlobs] at h
    rcases List.mem_cons.mp hi with rfl | hi
    · simp only [hn, hname, Bool.false_eq_true, if_false] at h
      split at h
      · simp at h
      · rename_i hcontent
        exact ⟨_, hcontent⟩
      · rename_i hcontent
        exact ⟨_, hcontent⟩
    · split at h
      · exact ih h hi hn hname
      · split_ifs at h
        · exact ih h hi hn hname
        · split at h
          · simp at h
          · exact ih h hi hn hname
          · rename_i content _
            obtain ⟨oid, hn'⟩ := (Stamped.setOid v id (computeGitSha1 .blob content)).getNode hn
            exact ih h hi hn' hname

/-! ## Dirty directories -/

/-- Tables whose nodes are where they were are walked over alike. -/
theorem dirtyWalk_congr (h : ∀ i, (w.getNode i).map (fun n => (n.id, n.isDir, n.parentId)) =
    (v.getNode i).map fun n => (n.id, n.isDir, n.parentId)) (fuel curr : Nat) (dirty : List Nat) :
    dirtyWalk w fuel curr dirty = dirtyWalk v fuel curr dirty := by
  induction fuel generalizing curr dirty with
  | zero =>
    have hcurr := h curr
    unfold dirtyWalk
    cases hv : v.getNode curr with
    | none =>
      rw [hv, Option.map_none, Option.map_eq_none_iff] at hcurr
      rw [hcurr]
    | some n =>
      rw [hv, Option.map_some] at hcurr
      obtain ⟨m, hm, heq⟩ := Option.map_eq_some_iff.mp hcurr
      simp only [Prod.mk.injEq] at heq
      rw [hm]
      simp only [heq.1, heq.2.1, heq.2.2]
  | succ fuel ih =>
    have hcurr := h curr
    unfold dirtyWalk
    cases hv : v.getNode curr with
    | none =>
      rw [hv, Option.map_none, Option.map_eq_none_iff] at hcurr
      rw [hcurr]
    | some n =>
      rw [hv, Option.map_some] at hcurr
      obtain ⟨m, hm, heq⟩ := Option.map_eq_some_iff.mp hcurr
      simp only [Prod.mk.injEq] at heq
      rw [hm]
      simp only [heq.1, heq.2.1, heq.2.2, ih]

theorem dirtyWalk_next {fuel i : Nat} {dirty dirty' : List Nat} {n : VfsNode} (hn : v.getNode i = some n)
    (h : dirtyWalk v fuel i dirty = some dirty') :
    ∃ above, (∀ d, d ∈ above ↔ d = n.parentId ∨ n.isDir = true ∧ d = n.id ∨ d ∈ dirty) ∧
      ((n.parentId = rootInode ∨ n.parentId = i) ∧ dirty' = above ∨
        ∃ fuel', fuel = fuel' + 1 ∧ dirtyWalk v fuel' n.parentId above = some dirty') := by
  unfold dirtyWalk at h
  rw [hn] at h
  simp only at h
  refine ⟨(if n.isDir then dirty.insert n.id else dirty).insert n.parentId, fun d => ?_, ?_⟩
  · cases n.isDir <;> simp
  · by_cases hstop : n.parentId = rootInode ∨ n.parentId = i
    · rw [if_pos hstop] at h
      exact .inl ⟨hstop, (Option.some.inj h).symm⟩
    · rw [if_neg hstop] at h
      split at h
      · cases h
      · exact .inr ⟨_, rfl, h⟩

/-- What a walk meets: directories that have what the parents of nodes have, each with the one above it. -/
theorem dirtyWalk_meets (hv : v.WellFormed) {P : Nat → Prop} (hparent : ∀ i n, v.getNode i = some n → P n.parentId)
    {fuel curr : Nat} {dirty dirty' : List Nat} (h : dirtyWalk v fuel curr dirty = some dirty')
    (hcurr : ∀ n, v.getNode curr = some n → n.isDir = true → P curr) (hdirty : ∀ d ∈ dirty, P d)
    (hup : ∀ d ∈ dirty, d ≠ curr → d ≠ rootInode → ∀ n, v.getNode d = some n → n.parentId ∈ dirty) :
    (∀ d ∈ dirty', P d) ∧ ClosedUp v dirty' ∧ ∀ n, v.getNode curr = some n → n.parentId ∈ dirty' := by
  induction fuel using Nat.strongRecOn generalizing curr dirty with
  | ind fuel ih =>
    cases hn : v.getNode curr with
    | none =>
      unfold dirtyWalk at h
      rw [hn, Option.some.injEq] at h
      subst h
      refine ⟨hdirty, fun d hd hroot n hnode => hup d hd ?_ hroot n hnode, by simp⟩
      rintro rfl
      rw [hn] at hnode
      cases hnode
    | some n =>
      obtain ⟨hnode, -⟩ := getNode_eq_some.mp hn
      have hid := hv.id_eq curr n hnode
      obtain ⟨above, hmem, hend⟩ := dirtyWalk_next hn h
      have hP : ∀ d ∈ above, P d := by
        intro d hd
        rcases (hmem d).mp hd with rfl | ⟨hdir, rfl⟩ | hd
        · exact hparent curr n hn
        · exact hid ▸ hcurr n hn hdir
        · exact hdirty d hd
      -- the node itself has its parent now, and the parent has yet to get its own
      have habove : ∀ d ∈ above, d ≠ n.parentId → d ≠ rootInode → ∀ m, v.getNode d = some m → m.parentId ∈ above := by
        intro d hd hne hroot m hm
        by_cases hself : d = curr
        · rw [hself, hn, Option.some.injEq] at hm
          exact (hmem _).mpr (.inl (hm ▸ rfl))
        · refine (hmem _).mpr (.inr (.inr (hup d ?_ hself hroot m hm)))
          rcases (hmem d).mp hd with heq | ⟨-, heq⟩ | hd
          · exact absurd heq hne
          · exact absurd (heq.trans hid) hself
          · exact hd
      have hin : n.parentId ∈ above := (hmem _).mpr (.inl rfl)
      rcases hend with ⟨hstop, rfl⟩ | ⟨fuel', hfuel, hwalk⟩
      · refine ⟨hP, fun d hd hroot m hm => ?_, fun m hm => ?_⟩
        · by_cases hd' : d = n.parentId
          · rcases hstop with hroot' | hself
            · exact absurd (hd'.trans hroot') hroot
            · rw [hd', hself, hn, Option.some.injEq] at hm
              exact hm ▸ hin
          · exact habove d hd hd' hroot m hm
        · rw [Option.some.injEq] at hm
          exact hm ▸ hin
      · obtain ⟨hall, hclosed, -⟩ := ih fuel' (by omega) hwalk (fun _ _ _ => hparent curr n hn) hP habove
        refine ⟨hall, hclosed, fun m hm => ?_⟩
        rw [Option.some.injEq] at hm
        exact dirtyWalk_mono hwalk _ (hm ▸ hin)

/-- The dirty directories: nodes with a list, each with the one above it, and the directory of every id. -/
theorem dirtyDirs_meets (hv : v.WellFormed) (hhoused : Housed v) {ids dirty : List Nat}
    (hfiles : ∀ id ∈ ids, ∀ n, v.getNode id = some n → n.isDir = false) (h : dirtyDirs v ids = some dirty) :
    rootInode ∈ dirty ∧
      (∀ d ∈ dirty, (∃ n, v.nodes d = some n) ∧ (d ≠ rootInode → ∃ cs, v.dirChildren d = some cs)) ∧
      ClosedUp v dirty ∧ ∀ id ∈ ids, ∀ n, v.getNode id = some n → n.parentId ∈ dirty := by
  have hparent : ∀ i n, v.getNode i = some n →
      (∃ m, v.nodes n.parentId = some m) ∧ (n.parentId ≠ rootInode → ∃ cs, v.dirChildren n.parentId = some cs) := by
    intro i n hn
    obtain ⟨hnode, -⟩ := getNode_eq_some.mp hn
    obtain ⟨p, hp, -⟩ := hv.parent i n hnode
    refine ⟨⟨p, hp⟩, fun hroot => ?_⟩
    obtain ⟨cs, hcs, -⟩ := hhoused i n hn fun hi => hroot (by
      obtain ⟨m, hm, -, -, hself⟩ := hv.root
      rw [hi, hm, Option.some.injEq] at hnode
      exact hnode ▸ hself)
    exact ⟨cs, hcs⟩
  unfold dirtyDirs at h
  have hinit : (∀ d ∈ [rootInode], (∃ n, v.nodes d = some n) ∧ (d ≠ rootInode → ∃ cs, v.dirChildren d = some cs)) ∧
      ClosedUp v [rootInode] := by
    obtain ⟨m, hm, -⟩ := hv.root
    constructor <;> intro d hd <;> obtain rfl := List.mem_singleton.mp hd
    · exact ⟨⟨m, hm⟩, fun hne => absurd rfl hne⟩
    · exact fun hne => absurd rfl hne
  have hroot : rootInode ∈ [rootInode] := List.mem_cons_self
  generalize [rootInode] = init at h hinit hroot
  suffices hall : (∀ d ∈ init, d ∈ dirty) ∧ (∀ d ∈ dirty, (∃ n, v.nodes d = some n) ∧
      (d ≠ rootInode → ∃ cs, v.dirChildren d = some cs)) ∧ ClosedUp v dirty ∧
      ∀ id ∈ ids, ∀ n, v.getNode id = some n → n.parentId ∈ dirty from ⟨hall.1 _ hroot, hall.2⟩
  clear hroot
  induction ids generalizing init with
  | nil =>
    rw [List.foldlM_nil] at h
    obtain rfl := Option.some.inj h
    exact ⟨fun d hd => hd, hinit.1, hinit.2, fun id hid => absurd hid List.not_mem_nil⟩
  | cons id ids ih =>
    rw [List.foldlM_cons] at h
    obtain ⟨next, hwalk, hrest⟩ := Option.bind_eq_some_iff.mp h
    obtain ⟨hP, hclosed, hself⟩ := dirtyWalk_meets hv hparent hwalk
      (fun n hn hdir => by rw [hfiles id List.mem_cons_self n hn] at hdir; cases hdir) hinit.1
      fun d hd _ hroot n hn => hinit.2 d hd hroot n hn
    obtain ⟨hnext, hall, hclosed', habove⟩ :=
      ih (fun id hid => hfiles id (List.mem_cons_of_mem _ hid)) next hrest ⟨hP, hclosed⟩
    refine ⟨fun d hd => hnext d (dirtyWalk_mono hwalk d hd), hall, hclosed', ?_⟩
    rintro id' (_ | ⟨_, hid'⟩) n hn
    · exact hnext _ (hself n hn)
    · exact habove id' hid' n hn

/-! ## Writing populates -/

/-- What populating a directory keeps the recursion over the dirty directories keeps. -/
theorem rebuildChildren_keeps {dirty : List Nat} {P : VfsManager → VfsManager → Prop} (hrefl : ∀ v, P v v)
    (htrans : ∀ u v w, P u v → P v w → P u w) {rebuild : Nat → VfsManager → NewObjects → TreeResult Str}
    (hrebuild : ∀ id v objs res v' objs', rebuild id v objs = some (res, v', objs') → P v v')
    {children : List VfsNode} {v v' : VfsManager} {objs objs' : NewObjects} {raw : Bytes} {res : Except Error Bytes}
    (h : rebuildChildren dirty rebuild children v objs raw = some (res, v', objs')) : P v v' := by
  induction children generalizing v objs raw with
  | nil =>
    simp only [rebuildChildren, Option.some.injEq, Prod.mk.injEq] at h
    exact h.2.1 ▸ hrefl v
  | cons child children ih =>
    have hchild : ∀ r v₁ objs₁, (if child.isDir && dirty.contains child.id then rebuild child.id v objs
        else some (.ok child.oid, v, objs)) = some (r, v₁, objs₁) → P v v₁ := by
      intro r v₁ objs₁ heq
      split_ifs at heq
      · exact hrebuild _ _ _ _ _ _ heq
      · simp only [Option.some.injEq, Prod.mk.injEq] at heq
        exact heq.2.1 ▸ hrefl v
    rw [rebuildChildren] at h
    split at h
    · simp at h
    · rename_i heq
      simp only [Option.some.injEq, Prod.mk.injEq] at h
      exact h.2.1 ▸ hchild _ _ _ heq
    · rename_i heq
      split_ifs at h
      · exact htrans _ _ _ (hchild _ _ _ heq) (ih h)
      · split at h
        · simp only [Option.some.injEq, Prod.mk.injEq] at h
          exact h.2.1 ▸ hchild _ _ _ heq
        · exact htrans _ _ _ (hchild _ _ _ heq) (ih h)

theorem rebuildTreeRecursive_keeps {dirty : List Nat} {P : VfsManager → VfsManager → Prop} (hrefl : ∀ v, P v v)
    (htrans : ∀ u v w, P u v → P v w → P u w) (hpop : ∀ v d, P v (v.ensureDirPopulated g d).2) {fuel : Nat} :
    ∀ id v objs res v' objs', rebuildTreeRecursive g staging dirty fuel id v objs = some (res, v', objs') →
      P v v' := by
  induction fuel with
  | zero =>
    intro id v objs res v' objs' h
    simp [rebuildTreeRecursive] at h
  | succ fuel ih =>
    intro id v objs res v' objs' h
    have hlist : P v (v.listDir g id).2 := by
      have := hpop v id
      unfold VfsManager.listDir
      split <;> rename_i heq <;> rwa [heq] at this
    rw [rebuildTreeRecursive] at h
    split at h
    · rename_i heq
      simp only [Option.some.injEq, Prod.mk.injEq] at h
      rw [heq] at hlist
      exact h.2.1 ▸ hlist
    · rename_i heq
      rw [heq] at hlist
      split at h
      · simp at h
      · rename_i hloop
        simp only [Option.some.injEq, Prod.mk.injEq] at h
        exact htrans _ _ _ hlist (h.2.1 ▸ rebuildChildren_keeps hrefl htrans ih hloop)
      · rename_i hloop
        have hboth := htrans _ _ _ hlist (rebuildChildren_keeps hrefl htrans ih hloop)
        simp only at h
        split at h <;> simp only [Option.some.injEq, Prod.mk.injEq] at h <;> exact h.2.1 ▸ hboth

end GitNfs
