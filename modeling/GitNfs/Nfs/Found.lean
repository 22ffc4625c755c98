import GitNfs.Nfs.Mirror

/-! # What lookups find

Lookups along a path make inodes on their way. What they find at its end is what stands at the place that the
path leads to, whether it had an inode before or not.
-/

namespace GitNfs

open VfsManager

namespace Fs

/-- The store has something of inodes only, and no name leads to what it notes as deleted. -/
structure Coherent (fs : Fs) : Prop where
  wellFormed : fs.vfs.WellFormed
  known : ∀ i, fs.staging.isStaged i = true ∨ fs.staging.isDeleted i = true → ∃ n, fs.vfs.nodes i = some n
  backed : ∀ i, fs.staging.isStaged i = true → ∃ content, fs.staging.files i = some content
  removed : ∀ i, fs.staging.isDeleted i = true → ∀ k, fs.vfs.childMap k ≠ some i

variable {g : GitEngine} {R : Nat → Nat → Prop} {fs fs' : Fs}

theorem Sound.coherent (hs : fs.Sound) : fs.Coherent where
  wellFormed := hs.wellFormed
  known := by
    rintro i (hi | hi)
    · exact hs.known i hi
    · exact (hs.removed i hi).2.1
  backed := hs.backed
  removed := fun i hi => (hs.removed i hi).2.2

/-! ## Two file systems with the same tree -/

theorem held_ne {st : StagingStore} {i : Nat} (h : st.isStaged i = true ∨ st.isDeleted i = true) :
    st.held i ≠ (none, none, false) := by
  intro hnone
  unfold StagingStore.held at hnone
  simp only [Prod.mk.injEq] at hnone
  obtain ⟨-, hsize, hdel⟩ := hnone
  rcases h with h | h
  · rw [show st.isStaged i = (st.getSize i).isSome from rfl, hsize] at h
    cases h
  · rw [hdel] at h
    cases h

theorem Same.coherent (h : Same g R fs fs') (hc : fs.Coherent) : fs'.Coherent := by
  have htwin {j : Nat} (hj : fs'.staging.isStaged j = true ∨ fs'.staging.isDeleted j = true) : ∃ i, R i j := by
    by_contra hnot
    exact held_ne hj (h.staging.right j (not_exists.mp hnot))
  refine ⟨h.sim.right, fun j hj => ?_, fun j hj => ?_, fun j hj k hk => ?_⟩
  · obtain ⟨i, hij⟩ := htwin hj
    obtain ⟨-, m, -, hm, -⟩ := h.sim.tables.node i j hij
    exact ⟨m, hm⟩
  · obtain ⟨i, hij⟩ := htwin (.inl hj)
    rw [h.staging.files hij]
    exact hc.backed i ((h.staging.isStaged hij).symm.trans hj)
  · obtain ⟨i, hij⟩ := htwin (.inr hj)
    have hgone := hc.removed i ((h.staging.isDeleted hij).symm.trans hj)
    obtain ⟨-, ids, hids, hmem⟩ := h.sim.right.child k.1 k.2 j hk
    by_cases hearly : ∀ d, R d k.1 → fs.vfs.dirChildren d = none
    · exact (h.sim.tables.early k.1 ids hids hearly).hidden j hmem i hij
    · -- the directory was asked for on both sides
      simp only [not_forall] at hearly
      obtain ⟨d, hd, hlist⟩ := hearly
      obtain ⟨ids', hids'⟩ := Option.ne_none_iff_exists'.mp hlist
      have hname := (h.sim.tables.opened d k.1 ids' hd hids').2 k.2
      rw [show fs'.vfs.childMap (k.1, k.2) = some j from hk] at hname
      obtain ⟨i', hi', hr⟩ := Walk.rel_some_right hname
      rw [h.unique.1 hr hij] at hi'
      exact hgone _ hi'

theorem Same.coherent_left (h : Same g R fs fs') (hc : fs'.Coherent) : fs.Coherent := by
  have htwin {i : Nat} (hi : fs.staging.isStaged i = true ∨ fs.staging.isDeleted i = true) : ∃ j, R i j := by
    by_contra hnot
    exact held_ne hi (h.staging.left i (not_exists.mp hnot))
  refine ⟨h.sim.left, fun i hi => ?_, fun i hi => ?_, fun i hi k hk => ?_⟩
  · obtain ⟨j, hij⟩ := htwin hi
    obtain ⟨n, -, hn, -, -⟩ := h.sim.tables.node i j hij
    exact ⟨n, hn⟩
  · obtain ⟨j, hij⟩ := htwin (.inl hi)
    rw [← h.staging.files hij]
    exact hc.backed j ((h.staging.isStaged hij).trans hi)
  · obtain ⟨j, hij⟩ := htwin (.inr hi)
    have hgone := hc.removed j ((h.staging.isDeleted hij).trans hi)
    obtain ⟨-, ids, hids, -⟩ := h.sim.left.child k.1 k.2 i hk
    obtain ⟨-, ⟨n, hn, -⟩, -⟩ := h.sim.left.listed k.1 ids hids
    obtain ⟨e, he⟩ := h.sim.tables.total k.1 n hn
    have hname := (h.sim.tables.opened k.1 e ids he hids).2 k.2
    rw [show fs.vfs.childMap (k.1, k.2) = some i from hk] at hname
    obtain ⟨j', hj', hr⟩ := Walk.rel_some_left hname
    rw [h.unique.2 hr hij] at hj'
    exact hgone _ hj'

/-! ## At the end of a path -/

/-- What is found at a place. -/
def foundOf (g : GitEngine) (fs : Fs) : Place → Option Found
  | .node i => (fs.vfs.nodes i).map fun n => ⟨n.mode, n.isDir, if n.isDir then none else fs.fileBytes g i n.oid⟩
  | .entry e => some ⟨e.mode, e.mode.isDir, if e.mode.isDir then none else blobBytes g e.oid⟩

namespace Coherent

theorem populated (hc : fs.Coherent) (d : Nat) : (fs.setVfs (fs.vfs.ensureDirPopulated g d).2).Coherent := by
  have hv := hc.wellFormed
  have hchanges : Changes anything g fs.vfs (fs.vfs.ensureDirPopulated g d).2 := ensureDirPopulated_changes hv d
  have hsettles := hchanges.settles
  refine ⟨hv.ensureDirPopulated d, fun i hi => ?_, hc.backed, fun i hi => ?_⟩
  · obtain ⟨n, hn⟩ := hc.known i hi
    exact hsettles.nodes i n hn
  · obtain ⟨n, hn⟩ := hc.known i (.inr hi)
    exact hsettles.unnamed i n hn (hc.removed i hi)

theorem foundOf_becomes (hc : fs.Coherent) {v' : VfsManager} (htracks : Tracks g fs.vfs v') {a b : Place}
    (h : Becomes g fs.vfs v' a b) : (fs.setVfs v').foundOf g b = fs.foundOf g a := by
  cases h with
  | @node i n hn =>
    show (v'.nodes i).map _ = (fs.vfs.nodes i).map _
    rw [htracks.nodes i n hn, hn]
    rfl
  | entry e => rfl
  | @made d j e hnew hn hids =>
    have hunstaged : fs.staging.isStaged j = false := by
      refine Bool.eq_false_iff.mpr fun hst => ?_
      obtain ⟨n, hn⟩ := hc.known j (.inl hst)
      simp [hnew] at hn
    have hbytes : (fs.setVfs v').fileBytes g j e.oid = blobBytes g e.oid := by
      unfold fileBytes
      rw [show (fs.setVfs v').staging = fs.staging from rfl, hunstaged, if_neg Bool.false_ne_true]
    show (v'.nodes j).map _ = _
    rw [hn, Option.map_some]
    simp only [entryNode, hbytes]
    rfl

/-- What is found at the end of a path stays when a directory on it is asked for. -/
theorem populated_place (hc : fs.Coherent) {d : Nat} {n : VfsNode} (hn : fs.vfs.nodes d = some n) (path : List Str) :
    (placeFrom g (fs.vfs.ensureDirPopulated g d).2 (.node d) path).bind
        ((fs.setVfs (fs.vfs.ensureDirPopulated g d).2).foundOf g) =
      (placeFrom g fs.vfs (.node d) path).bind (fs.foundOf g) := by
  have htracks := ensureDirPopulated_tracks (g := g) hc.wellFormed d
  have hplace := htracks.place (.node hn) path
  generalize placeFrom g fs.vfs (.node d) path = a at hplace ⊢
  generalize placeFrom g (fs.vfs.ensureDirPopulated g d).2 (.node d) path = b at hplace ⊢
  cases hplace with
  | none => rfl
  | some hbecomes => exact hc.foundOf_becomes htracks hbecomes

theorem descend (hc : fs.Coherent) {d : Nat} {n : VfsNode} (hn : fs.vfs.getNode d = some n) {path : List Str}
    (hdots : ∀ name ∈ path, isDots name = false) :
    ((fs.descend g d path).bind fun there => (there.2.vfs.getNode there.1).map fun n => there.2.found g n) =
      (placeFrom g fs.vfs (.node d) path).bind (fs.foundOf g) := by
  induction path generalizing fs d n with
  | nil =>
    have hnode := (getNode_eq_some.mp hn).1
    rw [Fs.descend, Option.bind_some, hn]
    show some (fs.found g n) = (fs.vfs.nodes d).map _
    rw [hnode, Option.map_some, Fs.found, hc.wellFormed.id_eq d n hnode]
  | cons name path ih =>
    have hnode := (getNode_eq_some.mp hn).1
    have hname := hdots name List.mem_cons_self
    obtain ⟨hdot, hdotdot⟩ := isDots_eq_false.mp hname
    rw [Fs.descend, lookup_eq hc.wellFormed hdot hdotdot, ← hc.populated_place hnode]
    have hpop := hc.populated (g := g) d
    rcases heq : fs.vfs.ensureDirPopulated g d with ⟨e | _, v⟩
    · -- it is no directory
      have hfile : fs.vfs.dirChildren d = none ∧ n.isDir = false ∧ v = fs.vfs := by
        unfold VfsManager.ensureDirPopulated at heq
        split at heq
        · simp at heq
        · rename_i hids
          rw [hnode] at heq
          simp only at heq
          split_ifs at heq with hdir
          · simp at heq
          · exact ⟨hids, Bool.eq_false_iff.mpr hdir, (Prod.mk.inj heq).2.symm⟩
      obtain ⟨hids, hdir, rfl⟩ := hfile
      rw [placeFrom, Walk.walk, childAt_unlisted hname hids hnode, hdir]
      rfl
    · rw [heq] at hpop
      obtain ⟨-, ids, hids⟩ := hc.wellFormed.ensureDirPopulated_ok heq
      rw [placeFrom, Walk.walk, childAt_listed hname hids]
      simp only
      cases hlive : v.liveChild d name with
      | none => rfl
      | some child =>
        obtain ⟨hmap, m, hm⟩ := liveChild_eq_some.mp hlive
        have hkept : fs.staging.isDeleted child = false := by
          refine Bool.eq_false_iff.mpr fun hdel => ?_
          exact hpop.removed child hdel _ hmap
        simp only [hkept, Bool.false_eq_true, if_false]
        exact ih hpop hm fun name hname => hdots name (List.mem_cons_of_mem _ hname)

/-- What lookups find at the end of a path is what stands at the place. -/
theorem foundAt (hc : fs.Coherent) {path : List Str} (hdots : ∀ name ∈ path, isDots name = false) :
    (fs.foundAt g path).map Prod.fst = (placeAt g fs.vfs path).bind (fs.foundOf g) := by
  obtain ⟨n, hn, -, hdel, -⟩ := hc.wellFormed.root
  rw [placeAt, ← hc.descend (getNode_eq_some.mpr ⟨hn, hdel⟩) hdots]
  unfold Fs.foundAt
  rw [Option.map_bind]
  congr 1
  funext there
  rw [Function.comp, Option.map_map]
  rfl

end Coherent

end Fs

end GitNfs
