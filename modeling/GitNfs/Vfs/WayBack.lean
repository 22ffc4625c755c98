import GitNfs.Vfs.Lazy
import GitNfs.Vfs.Paths
import GitNfs.Vfs.View

/-! # The way back

The log names an inode by its path. A path that leads back to its inode leads to the same one on a second
server, wherever the path is followed by a lookup or by the directories that are made for it.
-/

namespace GitNfs

/-- The path of a name in a directory that has a path. -/
def underPath (parentPath name : Str) : Str := if parentPath = [] then name else parentPath ++ '/' :: name

theorem components_name {name : Str} (hname : ValidName name) : components name = [name] := by
  obtain ⟨hne, -, -, hslash⟩ := hname
  unfold components
  rw [List.splitOn_eq_singleton hslash]
  simp [hne]

theorem components_underPath {name : Str} (hname : ValidName name) (parentPath : Str) :
    components (underPath parentPath name) = components parentPath ++ [name] := by
  unfold underPath
  split_ifs with hroot
  · rw [hroot, components_nil, components_name hname]
    rfl
  · rw [components_append_slash, components_name hname]

namespace VfsManager

/-- The path of an inode leads back to it. -/
def LeadsBack (g : GitEngine) (v : VfsManager) (i : Nat) : Prop :=
  ∃ path, v.getPath i = some (.ok path) ∧ (v.lookupPath g path).1 = .ok i

section

variable {g : GitEngine} {R : Nat → Nat → Prop} {v w v' : VfsManager} {d e i j : Nat}

/-! ## Two ways to follow a path -/

theorem lookupParts_filter (curr : Nat) (parts : List Str) :
    v.lookupParts g curr (parts.filter (· ≠ [])) = v.lookupParts g curr parts := by
  induction parts generalizing v curr with
  | nil => rfl
  | cons part parts ih =>
    by_cases hpart : part = []
    · subst hpart
      rw [List.filter_cons_of_neg (by simp), ih]
      conv_rhs => rw [lookupParts, if_pos (.inl rfl)]
    · rw [List.filter_cons_of_pos (by simpa using hpart), lookupParts, lookupParts]
      split_ifs
      · exact ih curr
      · rcases v.lookup g curr part with ⟨_ | id, w⟩
        · rfl
        · exact ih id

theorem lookupPath_eq (path : Str) : v.lookupPath g path = v.lookupParts g rootInode (components path) := by
  rw [← components_trimMatches path]
  unfold lookupPath
  simp only
  split_ifs with hclean
  · rw [hclean, components_nil]
    rfl
  · rw [components, lookupParts_filter]

theorem lookupPath_underPath {name : Str} (hname : ValidName name) {parentPath : Str}
    (h : v.lookupPath g parentPath = (.ok d, w)) :
    v.lookupPath g (underPath parentPath name) = w.lookup g d name := by
  rw [lookupPath_eq] at h
  rw [lookupPath_eq, components_underPath hname, lookupParts_append h, lookupParts,
    if_neg (by simp [hname.1, hname.2.1])]
  rcases w.lookup g d name with ⟨_ | id, u⟩ <;> rfl

theorem ensureDirs_of_found {parts : List Str} (hparts : ∀ part ∈ parts, part ≠ [])
    (h : v.lookupParts g i parts = (.ok j, w)) : v.ensureDirs g i parts = (.ok j, w) := by
  induction parts generalizing v i with
  | nil => exact h
  | cons part parts ih =>
    have hrest : ∀ part ∈ parts, part ≠ [] := fun p hp => hparts p (List.mem_cons_of_mem _ hp)
    have hne := hparts part List.mem_cons_self
    rw [lookupParts] at h
    rw [ensureDirs]
    split_ifs at h with hskip
    · obtain rfl := hskip.resolve_left hne
      rw [show v.lookup g i ['.'] = (.ok i, v) from if_pos rfl]
      exact ih hrest h
    · rcases hlookup : v.lookup g i part with ⟨_ | id, u⟩ <;> rw [hlookup] at h
      · simp at h
      · exact ih hrest h

/-- Where the directory of a path is found, none is made for it. -/
theorem ensureParentDirs_of_found {name : Str} (hname : ValidName name) {parentPath : Str}
    (h : v.lookupPath g parentPath = (.ok d, w)) :
    v.ensureParentDirs g (underPath parentPath name) = (.ok (d, name), w) := by
  rw [lookupPath_eq] at h
  have hdirs := ensureDirs_of_found (fun part hpart => (mem_components hpart).1) h
  unfold ensureParentDirs
  simp only [components_trimMatches, components_underPath hname, List.getLast?_concat, List.dropLast_concat, hdirs]

/-! ## On two servers -/

theorem Sim.lookupParts (h : Sim g R v w) (hij : R i j) (parts : List Str) :
    Both g R (fun R i j => R i j) (v.lookupParts g i parts) (w.lookupParts g j parts) := by
  induction parts generalizing v w R i j with
  | nil => exact .ok (fun _ _ h => h) h hij
  | cons part parts ih =>
    rw [VfsManager.lookupParts, VfsManager.lookupParts]
    split_ifs
    · exact ih h hij
    · have hlookup : Both g R (fun R i j => R i j) (v.lookup g i part) (w.lookup g j part) :=
        h.lookup (.inl hij) (.inl hij)
      generalize v.lookup g i part = a at hlookup ⊢
      generalize w.lookup g j part = b at hlookup ⊢
      cases hlookup with
      | ok hR hsim hxy => exact (ih hsim hxy).mono hR
      | error hR hsim htwin => exact .error hR hsim htwin

theorem Sim.lookupPath (h : Sim g R v w) (hroot : R rootInode rootInode) (path : Str) :
    Both g R (fun R i j => R i j) (v.lookupPath g path) (w.lookupPath g path) := by
  rw [lookupPath_eq, lookupPath_eq]
  exact h.lookupParts hroot _

/-- Following a path changes nothing but what was asked for. -/
theorem Sim.follow_right (h : Sim g R v w) (path : Str) : Sim g R v (w.lookupPath g path).2 := by
  rw [lookupPath_eq]
  generalize rootInode = curr
  generalize components path = parts
  induction parts generalizing w curr with
  | nil => exact h
  | cons part parts ih =>
    rw [VfsManager.lookupParts]
    split_ifs
    · exact ih h curr
    · have hstep : Sim g R v (w.lookup g curr part).2 := by
        rcases lookup_state (g := g) h.right curr part with heq | heq <;> rw [heq]
        · exact h
        · exact h.ensure_right curr
      rcases hlookup : w.lookup g curr part with ⟨_ | id, u⟩ <;> rw [hlookup] at hstep
      · exact hstep
      · exact ih hstep id

theorem Sim.twin (h : Sim g R v w) {n : VfsNode} (hn : v.nodes i = some n) : ∃ j, R i j := h.tables.total i n hn

/-- The second server finds its own inode on the same path. -/
theorem Sim.leads_back (h : Sim g R v w) (hroot : R rootInode rootInode) (hij : R i j) {path : Str}
    (hpath : (v.lookupPath g path).1 = .ok i) :
    w.lookupPath g path = (.ok j, (w.lookupPath g path).2) := by
  have hboth := h.lookupPath hroot path
  rcases hv : v.lookupPath g path with ⟨res, v₁⟩
  rcases hw : w.lookupPath g path with ⟨res', w₁⟩
  rw [hv, hw] at hboth
  rw [hv] at hpath
  cases hboth with
  | error _ _ _ => simp at hpath
  | ok hR hsim hxy =>
    simp only [Except.ok.injEq] at hpath
    subst hpath
    rw [hsim.tables.unique.2 hxy (hR _ _ hij)]

/-! ## A path stays -/

/-- Every node keeps its name and its parent. -/
def KeepsNames (v v' : VfsManager) : Prop :=
  ∀ i n, v.nodes i = some n → ∃ n', v'.nodes i = some n' ∧ n'.parentId = n.parentId ∧ n'.name = n.name

theorem KeepsNames.refl (v : VfsManager) : KeepsNames v v := fun _ n hn => ⟨n, hn, rfl, rfl⟩

theorem getPathLoop_kept (hk : KeepsNames v v') {fuel fuel' curr : Nat} {names : List Str}
    {r : Except Error (List Str)} (h : v.getPathLoop fuel curr = some (.ok names))
    (h' : v'.getPathLoop fuel' curr = some r) : r = .ok names := by
  induction fuel generalizing fuel' curr names r with
  | zero =>
    unfold getPathLoop at h h'
    split_ifs at h h' with hroot
    simp only [Option.some.injEq] at h h'
    rw [← h', ← h]
  | succ fuel ih =>
    unfold getPathLoop at h h'
    split_ifs at h h' with hroot
    · simp only [Option.some.injEq] at h h'
      rw [← h', ← h]
    · cases hn : v.nodes curr with
      | none => simp [hn] at h
      | some n =>
        obtain ⟨n', hn', hparent, hname⟩ := hk curr n hn
        cases fuel' with
        | zero => simp at h'
        | succ fuel' =>
          simp only [hn, hn', hparent, hname] at h h'
          split_ifs at h h' with hself
          · simp only [Option.some.injEq] at h h'
            rw [← h', ← h]
          · obtain ⟨up, hup, heq⟩ := Option.map_eq_some_iff.mp h
            obtain ⟨up', hup', rfl⟩ := Option.map_eq_some_iff.mp h'
            cases up with
            | error e => simp [Except.map] at heq
            | ok names' =>
              rw [ih hup hup']
              exact heq

theorem getPath_kept (hk : KeepsNames v v') {path : Str} {r : Except Error Str}
    (h : v.getPath i = some (.ok path)) (h' : v'.getPath i = some r) : r = .ok path := by
  obtain ⟨up, hup, heq⟩ := Option.map_eq_some_iff.mp h
  obtain ⟨up', hup', rfl⟩ := Option.map_eq_some_iff.mp h'
  cases up with
  | error e => simp [Except.map] at heq
  | ok names =>
    rw [getPathLoop_kept hk hup hup']
    exact heq

/-- What moves nothing. -/
def unmoving : Allowed := ⟨True, True, fun _ => True, fun _ _ _ _ => False⟩

theorem Change.keepsNames (hv : v.WellFormed) (h : Change unmoving g v v') : KeepsNames v v' := by
  intro i n hn
  cases h with
  | populate hd hdir hisDir => exact ⟨n, populate_nodes_old hv hd hn, rfl, rfl⟩
  | @revive k j m _ hfile hj hm hmap hnodes =>
    rw [hnodes]
    split_ifs with hij
    · rw [hij, hm, Option.some.injEq] at hn
      exact ⟨_, rfl, by rw [← hn], by rw [← hn]⟩
    · exact ⟨n, hn, rfl, rfl⟩
  | add hid hlive hfile hdir hname hfree hmap hnodes =>
    have := hv.fresh i n hn
    rw [hnodes, if_neg (by omega)]
    exact ⟨n, hn, rfl, rfl⟩
  | remove hj hmap hnodes =>
    rw [hnodes]
    split_ifs with hij
    · rw [← hij, hn]
      exact ⟨kill n, rfl, rfl, rfl⟩
    · exact ⟨n, hn, rfl, rfl⟩
  | move hj hm hdir hname hmove hmap hnodes => exact hmove.elim

/-- Only a rename takes a name or a parent from a node. -/
theorem apply_keepsNames (hv : v.WellFormed) (call : VfsCall) (hstay : call.Moves g unmoving.move v) :
    KeepsNames v (call.apply g v) := by
  have hchanges : Changes unmoving g v (call.apply g v) :=
    apply_changes hv call (.inr trivial) (fun _ _ => trivial) (.inl trivial) hstay
  refine hchanges.keeps (I := KeepsNames v) (fun u u' hu hchange hk i n hn => ?_) (.refl v)
  obtain ⟨n', hn', hparent, hname⟩ := hk i n hn
  obtain ⟨n'', hn'', hparent', hname'⟩ := hchange.keepsNames hu i n' hn'
  exact ⟨n'', hn'', hparent'.trans hparent, hname'.trans hname⟩

theorem updateFileSize_keepsNames (v : VfsManager) (i size : Nat) : KeepsNames v (v.updateFileSize i size) := by
  intro k n hn
  unfold updateFileSize
  rw [modifyNode_nodes]
  split_ifs with hk
  · rw [← hk, hn]
    exact ⟨_, rfl, rfl, rfl⟩
  · exact ⟨n, hn, rfl, rfl⟩

end

section Again

variable {g : GitEngine} {u v w : VfsManager}

/-! ## A path that is followed again -/

theorem lookup_found {d i : Nat} {name : Str} (hdots : isDots name = false) (h : v.lookup g d name = (.ok i, w)) :
    w.liveChild d name = some i := by
  obtain ⟨hdot, hdotdot⟩ := isDots_eq_false.mp hdots
  unfold VfsManager.lookup at h
  rw [if_neg hdot, if_neg hdotdot] at h
  split at h
  · rename_i hlive
    simp only [Prod.mk.injEq, Except.ok.injEq] at h
    obtain ⟨rfl, rfl⟩ := h
    exact hlive
  · split at h
    · simp at h
    · split at h
      · rename_i hlive
        simp only [Prod.mk.injEq, Except.ok.injEq] at h
        obtain ⟨rfl, rfl⟩ := h
        exact hlive
      · simp at h

/-- Nodes and names stay. -/
structure Finds (v w : VfsManager) : Prop where
  nodes : ∀ i n, v.nodes i = some n → w.nodes i = some n
  names : ∀ k i, v.childMap k = some i → w.childMap k = some i

namespace Finds

theorem refl (v : VfsManager) : Finds v v := ⟨fun _ _ h => h, fun _ _ h => h⟩

theorem trans (h : Finds u v) (h' : Finds v w) : Finds u w :=
  ⟨fun i n hn => h'.nodes i n (h.nodes i n hn), fun k i hi => h'.names k i (h.names k i hi)⟩

theorem liveChild (h : Finds v w) {d i : Nat} {name : Str} (hlive : v.liveChild d name = some i) :
    w.liveChild d name = some i := by
  obtain ⟨hi, n, hn⟩ := liveChild_eq_some.mp hlive
  obtain ⟨hnode, hdel⟩ := getNode_eq_some.mp hn
  exact liveChild_eq_some.mpr ⟨h.names _ i hi, n, getNode_eq_some.mpr ⟨h.nodes i n hnode, hdel⟩⟩

theorem ensureDirPopulated (hv : v.WellFormed) (d : Nat) : Finds v (v.ensureDirPopulated g d).2 := by
  obtain ⟨ids, -, heq⟩ | ⟨dir, hd, hdir, hisDir, heq⟩ | ⟨e, heq⟩ := ensureDirPopulated_cases g v d <;> rw [heq]
  · exact .refl v
  · refine ⟨fun i n hn => populate_nodes_old hv hd hn, fun k i hi => ?_⟩
    by_cases hk : k.1 = d
    · have hnone := hv.unmapped hd k.2
      rw [← hk, hi] at hnone
      cases hnone
    · exact (populate_childMap_ne hv hd _ hk k.2).trans hi
  · exact .refl v

theorem lookup (hv : v.WellFormed) (d : Nat) (name : Str) : Finds v (v.lookup g d name).2 := by
  rcases lookup_state (g := g) hv d name with heq | heq <;> rw [heq]
  · exact .refl v
  · exact ensureDirPopulated hv d

theorem lookupParts (hv : v.WellFormed) (curr : Nat) (parts : List Str) :
    Finds v (v.lookupParts g curr parts).2 := by
  induction parts generalizing v curr with
  | nil => exact .refl v
  | cons part parts ih =>
    rw [VfsManager.lookupParts]
    split_ifs
    · exact ih hv curr
    · have hlookup := lookup (g := g) hv curr part
      have hv' := hv.lookup (g := g) curr part
      rcases hpart : v.lookup g curr part with ⟨_ | id, w⟩ <;> rw [hpart] at hlookup hv'
      · exact hlookup
      · exact hlookup.trans (ih hv' id)

/-- A name that was found is found again, and nothing is populated for it. -/
theorem lookup_again {d i : Nat} {name : Str} (hfound : v.lookup g d name = (.ok i, w)) (h : Finds w u) :
    u.lookup g d name = (.ok i, u) := by
  have hfound' := hfound
  unfold VfsManager.lookup at hfound ⊢
  split_ifs at hfound ⊢ with hdot hdots
  · simp only [Prod.mk.injEq, Except.ok.injEq] at hfound
    rw [hfound.1]
  · split at hfound
    · rename_i node hnode
      simp only [Prod.mk.injEq, Except.ok.injEq] at hfound
      obtain ⟨rfl, rfl⟩ := hfound
      rw [h.nodes d node hnode]
    · simp at hfound
  · rw [h.liveChild (lookup_found (isDots_eq_false.mpr ⟨hdot, hdots⟩) hfound')]

theorem lookupParts_again (hv : v.WellFormed) {curr id : Nat} {parts : List Str}
    (hfound : v.lookupParts g curr parts = (.ok id, w)) (h : Finds w u) :
    u.lookupParts g curr parts = (.ok id, u) := by
  induction parts generalizing v curr with
  | nil =>
    simp only [VfsManager.lookupParts, Prod.mk.injEq, Except.ok.injEq] at hfound
    rw [← hfound.1]
    rfl
  | cons part parts ih =>
    rw [VfsManager.lookupParts] at hfound ⊢
    split_ifs at hfound ⊢ with hskip
    · exact ih hv hfound
    · have hv' := hv.lookup (g := g) curr part
      rcases hpart : v.lookup g curr part with ⟨_ | j, v₁⟩ <;> rw [hpart] at hfound hv'
      · simp at hfound
      · have hrest := lookupParts (g := g) hv' j parts
        simp only at hfound
        rw [hfound] at hrest
        rw [lookup_again hpart (hrest.trans h)]
        exact ih hv' hfound

end Finds

theorem lookupParts_error {curr : Nat} {parts : List Str} {e : Error} (h : v.lookupParts g curr parts = (.error e, w))
    (rest : List Str) : (v.lookupParts g curr (parts ++ rest)).1 = .error e := by
  induction parts generalizing v curr with
  | nil => simp [VfsManager.lookupParts] at h
  | cons part parts ih =>
    rw [VfsManager.lookupParts] at h
    rw [List.cons_append, VfsManager.lookupParts]
    split_ifs at h ⊢
    · exact ih h
    · rcases hpart : v.lookup g curr part with ⟨_ | j, v₁⟩ <;> rw [hpart] at h
      · simp only [Prod.mk.injEq] at h
        exact h.1
      · exact ih h

/-- A path that was found ends with a name of the directory that is found for it again. -/
theorem ensureParentDirs_again (hv : v.WellFormed) {path name : Str} {i : Nat}
    (hlast : (components path).getLast? = some name) (hdots : isDots name = false)
    (hfound : v.lookupPath g path = (.ok i, w)) :
    ∃ d, w.ensureParentDirs g path = (.ok (d, name), w) ∧ w.liveChild d name = some i := by
  obtain ⟨hdot, hdotdot⟩ := isDots_eq_false.mp hdots
  have hsplit : components path = (components path).dropLast ++ [name] :=
    (List.dropLast_append_getLast? name hlast).symm
  have hne : name ≠ [] := (mem_components (List.mem_of_getLast? hlast)).1
  rw [lookupPath_eq, hsplit] at hfound
  rcases hdir : v.lookupParts g rootInode (components path).dropLast with ⟨e | d, v₁⟩
  · have hshort := lookupParts_error hdir [name]
    rw [hfound] at hshort
    cases hshort
  · have hv₁ : v₁.WellFormed := by
      have := hv.lookupParts (g := g) rootInode (components path).dropLast
      rwa [hdir] at this
    rw [lookupParts_append hdir, lookupParts, if_neg (by simp [hne, hdot])] at hfound
    rcases hname : v₁.lookup g d name with ⟨_ | j, v₂⟩ <;> rw [hname] at hfound
    · simp at hfound
    · simp only [lookupParts, Prod.mk.injEq, Except.ok.injEq] at hfound
      obtain ⟨rfl, rfl⟩ := hfound
      have hlater := Finds.lookup (g := g) hv₁ d name
      rw [hname] at hlater
      have hdirs := ensureDirs_of_found (fun part hpart => (mem_components (List.dropLast_subset _ hpart)).1)
        (Finds.lookupParts_again hv hdir hlater)
      refine ⟨d, ?_, ?_⟩
      · unfold ensureParentDirs
        simp only [components_trimMatches, hlast, hdirs]
      · exact lookup_found hdots hname

end Again

end VfsManager

end GitNfs
