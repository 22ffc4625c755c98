import GitNfs.Git.Unchanged
import GitNfs.Vfs.Updates

/-! # The trees of a commit

What the directories of the tables are as trees, without an order in which they are written. The recursion
over the dirty directories writes just these trees, and packs those that the base does not have.
-/

namespace GitNfs

open VfsManager

/-- The live children on the list of a directory. -/
def VfsManager.listing (v : VfsManager) (dirId : Nat) : List VfsNode :=
  ((v.dirChildren dirId).getD []).filterMap v.getNode

/-- The id that a child has in the tree of its directory. -/
def childOid (dirty : List Nat) (tree : Nat → Bytes) (child : VfsNode) : Str :=
  if child.isDir && dirty.contains child.id then computeGitSha1 .tree (tree child.id) else child.oid

def childEntry (dirty : List Nat) (tree : Nat → Bytes) (child : VfsNode) : Option (TreeEntryMode × Str × Bytes) :=
  if childOid dirty tree child = [] then none
  else (hexDecode (childOid dirty tree child)).map fun sha => (child.mode, child.name, sha)

/-- The tree of a directory, and those of the dirty directories below it. -/
def committedTrees (staging : StagingStore) (dirty : List Nat) (v : VfsManager) : Nat → Nat → List Bytes
  | 0, _ => []
  | fuel + 1, dirId =>
    let valid := validChildren staging (v.listing dirId)
    rawTree (valid.filterMap (childEntry dirty fun id => (committedTrees staging dirty v fuel id).headD [])) ::
      valid.flatMap fun child =>
        if child.isDir && dirty.contains child.id then committedTrees staging dirty v fuel child.id else []

/-! ## Tables that only grow -/

/-- Nodes and lists stay what they are. -/
structure Later (v w : VfsManager) : Prop where
  nodes : Extends v w
  lists : ∀ d ids, v.dirChildren d = some ids → w.dirChildren d = some ids

namespace Later

variable {g : GitEngine} {u v w : VfsManager}

theorem refl (v : VfsManager) : Later v v := ⟨.refl v, fun _ _ h => h⟩

theorem trans (h : Later u v) (h' : Later v w) : Later u w :=
  ⟨h.nodes.trans h'.nodes, fun d ids hids => h'.lists d ids (h.lists d ids hids)⟩

theorem ensureDirPopulated (hv : v.WellFormed) (d : Nat) : Later v (v.ensureDirPopulated g d).2 := by
  obtain ⟨ids, -, heq⟩ | ⟨dir, hd, hdir, hisDir, heq⟩ | ⟨e, heq⟩ := ensureDirPopulated_cases g v d <;> rw [heq]
  · exact .refl v
  · refine ⟨fun i n hn => populate_nodes_old hv hd hn, fun d' ids hids => ?_⟩
    rw [populate_dirChildren (hv.unmapped hd), if_neg, hids]
    rintro rfl
    rw [hd] at hids
    cases hids
  · exact .refl v

theorem getNode (h : Later v w) {i : Nat} {n : VfsNode} (hn : v.nodes i = some n) : w.getNode i = v.getNode i := by
  unfold VfsManager.getNode
  rw [hn, h.nodes i n hn]

/-- What was listed once is listed for good. -/
theorem listing_eq (h : Later v w) (hv : v.WellFormed) {d : Nat} {ids : List Nat}
    (hids : v.dirChildren d = some ids) : w.listing d = ids.filterMap v.getNode := by
  unfold listing
  rw [h.lists d ids hids, Option.getD_some]
  refine List.filterMap_congr fun i hi => ?_
  obtain ⟨-, -, hlist⟩ := hv.listed d ids hids
  obtain ⟨n, -, hn, -⟩ := hlist i hi
  exact h.getNode hn

end Later

theorem listDir_later {g : GitEngine} {v v' : VfsManager} (hv : v.WellFormed) {d : Nat} {children : List VfsNode}
    (hlist : v.listDir g d = (.ok children, v')) :
    v'.WellFormed ∧ Later v v' ∧ ∀ w, Later v' w → w.listing d = children := by
  have hwell := hv.listDir (g := g) d
  rw [hlist] at hwell
  unfold VfsManager.listDir at hlist
  split at hlist
  · simp at hlist
  · rename_i v₁ hpop
    have hlater := Later.ensureDirPopulated (g := g) hv d
    rw [hpop] at hlater
    obtain ⟨hv₁, ids, hids⟩ := hv.ensureDirPopulated_ok hpop
    simp only [Prod.mk.injEq, Except.ok.injEq, hids, Option.getD_some] at hlist
    obtain ⟨rfl, rfl⟩ := hlist
    exact ⟨hwell, hlater, fun w hw => hw.listing_eq hv₁ hids⟩

/-! ## What the recursion packs -/

def GitEngine.Loaded (g : GitEngine) (oid : Str) : Prop := ∃ t, g.getTree oid = some t

/-- The trees that were not loaded are put among the objects, and nothing else. -/
structure Adds (g : GitEngine) (objs objs' : NewObjects) (trees : List Bytes) : Prop where
  keeps : ∀ o, o ∈ objs → o ∈ objs'
  packs : ∀ raw ∈ trees, computeGitSha1 .tree raw ∈ objs' ∨ g.Loaded (computeGitSha1 .tree raw)
  only : ∀ o obj, objs'.lookup o = some obj → objs.lookup o = some obj ∨
    ∃ raw ∈ trees, o = computeGitSha1 .tree raw ∧ obj = ⟨o, .tree, raw⟩

namespace Adds

variable {g : GitEngine} {objs objs₁ objs' : NewObjects} {trees trees' : List Bytes}

theorem none (g : GitEngine) (objs : NewObjects) : Adds g objs objs [] :=
  ⟨fun _ h => h, fun _ h => absurd h List.not_mem_nil, fun _ _ h => .inl h⟩

theorem append (h : Adds g objs objs₁ trees) (h' : Adds g objs₁ objs' trees') :
    Adds g objs objs' (trees ++ trees') := by
  refine ⟨fun o ho => h'.keeps o (h.keeps o ho), fun raw hraw => ?_, fun o obj ho => ?_⟩
  · rcases List.mem_append.mp hraw with hraw | hraw
    · exact (h.packs raw hraw).imp_left (h'.keeps _)
    · exact h'.packs raw hraw
  · rcases h'.only o obj ho with ho | ⟨raw, hraw, heq⟩
    · rcases h.only o obj ho with ho | ⟨raw, hraw, heq⟩
      · exact .inl ho
      · exact .inr ⟨raw, List.mem_append_left _ hraw, heq⟩
    · exact .inr ⟨raw, List.mem_append_right _ hraw, heq⟩

/-- The tree of the directory itself, when it is known already. -/
theorem known (h : Adds g objs objs' trees) {raw : Bytes} (hraw : g.Loaded (computeGitSha1 .tree raw)) :
    Adds g objs objs' (raw :: trees) := by
  refine ⟨h.keeps, ?_, fun o obj ho => ?_⟩
  · rintro raw' (_ | ⟨_, hraw'⟩)
    · exact .inr hraw
    · exact h.packs raw' hraw'
  · exact (h.only o obj ho).imp_right fun ⟨raw', hraw', heq⟩ => ⟨raw', List.mem_cons_of_mem _ hraw', heq⟩

theorem insert (h : Adds g objs objs' trees) (raw : Bytes) :
    Adds g objs (objs'.insert (computeGitSha1 .tree raw) ⟨computeGitSha1 .tree raw, .tree, raw⟩) (raw :: trees) := by
  refine ⟨fun o ho => (AList.mem_insert _).mpr (.inr (h.keeps o ho)), ?_, fun o obj ho => ?_⟩
  · rintro raw' (_ | ⟨_, hraw⟩)
    · exact .inl ((AList.mem_insert _).mpr (.inl rfl))
    · exact (h.packs raw' hraw).imp_left fun ho => (AList.mem_insert _).mpr (.inr ho)
  · by_cases heq : o = computeGitSha1 .tree raw
    · subst heq
      rw [AList.lookup_insert, Option.some.injEq] at ho
      exact .inr ⟨raw, List.mem_cons_self, rfl, ho.symm⟩
    · rw [AList.lookup_insert_ne heq] at ho
      exact (h.only o obj ho).imp_right fun ⟨raw', hraw, heq⟩ => ⟨raw', List.mem_cons_of_mem _ hraw, heq⟩

end Adds

/-- The fuel is enough for the dirty directories below. -/
inductive Deep (staging : StagingStore) (dirty : List Nat) (w : VfsManager) : Nat → Nat → Prop
  | dir {fuel dirId : Nat} (h : ∀ child ∈ validChildren staging (w.listing dirId),
      (child.isDir && dirty.contains child.id) = true → Deep staging dirty w fuel child.id) :
      Deep staging dirty w (fuel + 1) dirId

/-- One directory: its tree and the trees below it, whatever else is asked for later. -/
structure Writes (g : GitEngine) (staging : StagingStore) (dirty : List Nat) (fuel dirId : Nat)
    (v v' : VfsManager) (objs objs' : NewObjects) (treeSha : Str) : Prop where
  wellFormed : v'.WellFormed
  later : Later v v'
  updates : ∀ lim, Updates lim g v v'
  tree : ∀ w, Later v' w → ∃ raw below, committedTrees staging dirty w fuel dirId = raw :: below ∧
    treeSha = computeGitSha1 .tree raw ∧ Adds g objs objs' (raw :: below) ∧ Deep staging dirty w fuel dirId

section

variable {g : GitEngine} {staging : StagingStore} {dirty : List Nat}

theorem rebuildChildren_commits {fuel : Nat}
    (ih : ∀ id v objs treeSha v' objs', v.WellFormed →
      rebuildTreeRecursive g staging dirty fuel id v objs = some (.ok treeSha, v', objs') →
      Writes g staging dirty fuel id v v' objs objs' treeSha)
    {children : List VfsNode} {v v' : VfsManager} {objs objs' : NewObjects} {raw out : Bytes} (hv : v.WellFormed)
    (h : rebuildChildren dirty (rebuildTreeRecursive g staging dirty fuel) children v objs raw =
      some (.ok out, v', objs')) :
    v'.WellFormed ∧ Later v v' ∧ (∀ lim, Updates lim g v v') ∧ ∀ w, Later v' w →
      out = raw ++ rawTree (children.filterMap
        (childEntry dirty fun id => (committedTrees staging dirty w fuel id).headD [])) ∧
      (Adds g objs objs' (children.flatMap fun child =>
        if child.isDir && dirty.contains child.id then committedTrees staging dirty w fuel child.id else [])) ∧
      ∀ child ∈ children, (child.isDir && dirty.contains child.id) = true → Deep staging dirty w fuel child.id := by
  induction children generalizing v objs raw with
  | nil =>
    simp only [rebuildChildren, Option.some.injEq, Prod.mk.injEq, Except.ok.injEq] at h
    obtain ⟨rfl, rfl, rfl⟩ := h
    exact ⟨hv, .refl v, fun _ => .refl, fun w _ =>
      ⟨(List.append_nil _).symm, .none g objs, fun _ h => absurd h List.not_mem_nil⟩⟩
  | cons child children hrest =>
    have hchild : ∀ oid v₁ objs₁,
        (if child.isDir && dirty.contains child.id then rebuildTreeRecursive g staging dirty fuel child.id v objs
          else some (.ok child.oid, v, objs)) = some (.ok oid, v₁, objs₁) →
        v₁.WellFormed ∧ Later v v₁ ∧ (∀ lim, Updates lim g v v₁) ∧ ∀ w, Later v₁ w →
          oid = childOid dirty (fun id => (committedTrees staging dirty w fuel id).headD []) child ∧
          Adds g objs objs₁ (if child.isDir && dirty.contains child.id then
            committedTrees staging dirty w fuel child.id else []) ∧
          ((child.isDir && dirty.contains child.id) = true → Deep staging dirty w fuel child.id) := by
      intro oid v₁ objs₁ heq
      by_cases hdirty : (child.isDir && dirty.contains child.id) = true
      · rw [if_pos hdirty] at heq
        obtain ⟨hwell, hlater, hupdates, htree⟩ := ih _ _ _ _ _ _ hv heq
        refine ⟨hwell, hlater, hupdates, fun w hw => ?_⟩
        obtain ⟨raw₁, below, htrees, hsha, hadds, hdeep⟩ := htree w hw
        rw [childOid, if_pos hdirty, if_pos hdirty, htrees]
        exact ⟨hsha, hadds, fun _ => hdeep⟩
      · rw [if_neg hdirty] at heq
        simp only [Option.some.injEq, Prod.mk.injEq, Except.ok.injEq] at heq
        obtain ⟨rfl, rfl, rfl⟩ := heq
        refine ⟨hv, .refl v, fun _ => .refl, fun w _ => ?_⟩
        rw [childOid, if_neg hdirty, if_neg hdirty]
        exact ⟨rfl, .none g objs, fun h => absurd h hdirty⟩
    have hall {w : VfsManager} (hself : (child.isDir && dirty.contains child.id) = true →
        Deep staging dirty w fuel child.id) (hothers : ∀ c ∈ children, (c.isDir && dirty.contains c.id) = true →
        Deep staging dirty w fuel c.id) : ∀ c ∈ child :: children, (c.isDir && dirty.contains c.id) = true →
        Deep staging dirty w fuel c.id := by
      rintro c (_ | ⟨_, hc⟩)
      · exact hself
      · exact hothers c hc
    rw [rebuildChildren] at h
    split at h
    · simp at h
    · simp at h
    · rename_i oid v₁ objs₁ heq
      obtain ⟨hv₁, hlater₁, hupdates₁, hoid⟩ := hchild _ _ _ heq
      split_ifs at h with hempty
      · obtain ⟨hv', hlater', hupdates', hout⟩ := hrest hv₁ h
        refine ⟨hv', hlater₁.trans hlater', fun lim => (hupdates₁ lim).trans (hupdates' lim), fun w hw => ?_⟩
        obtain ⟨hsame, hadds, hdeep⟩ := hoid w (hlater'.trans hw)
        obtain ⟨hbytes, hadds', hdeeps⟩ := hout w hw
        refine ⟨?_, hadds.append hadds', hall hdeep hdeeps⟩
        rw [List.filterMap_cons_none, hbytes]
        rw [childEntry, if_pos (hsame ▸ hempty)]
      · split at h
        · simp at h
        · rename_i sha hsha
          obtain ⟨hv', hlater', hupdates', hout⟩ := hrest hv₁ h
          refine ⟨hv', hlater₁.trans hlater', fun lim => (hupdates₁ lim).trans (hupdates' lim), fun w hw => ?_⟩
          obtain ⟨hsame, hadds, hdeep⟩ := hoid w (hlater'.trans hw)
          obtain ⟨hbytes, hadds', hdeeps⟩ := hout w hw
          refine ⟨?_, hadds.append hadds', hall hdeep hdeeps⟩
          have hentry : childEntry dirty (fun id => (committedTrees staging dirty w fuel id).headD []) child =
              some (child.mode, child.name, sha) := by
            rw [childEntry, if_neg (hsame ▸ hempty), ← hsame, hsha, Option.map_some]
          rw [List.filterMap_cons_some hentry, hbytes, List.append_assoc, rawTree, rawTree, List.flatMap_cons]

/-- The recursion over the dirty directories writes the trees that they have when it is over. -/
theorem rebuildTreeRecursive_commits {fuel : Nat} :
    ∀ id v objs treeSha v' objs', v.WellFormed →
      rebuildTreeRecursive g staging dirty fuel id v objs = some (.ok treeSha, v', objs') →
      Writes g staging dirty fuel id v v' objs objs' treeSha := by
  induction fuel with
  | zero =>
    intro id v objs treeSha v' objs' _ h
    simp [rebuildTreeRecursive] at h
  | succ fuel ih =>
    intro id v objs treeSha v' objs' hv h
    rw [rebuildTreeRecursive] at h
    split at h
    · simp at h
    · rename_i children v₁ hlist
      obtain ⟨hv₁, hlater₁, hlisting⟩ := listDir_later hv hlist
      have hupdates₁ (lim : Limits) : Updates lim g v v₁ := by
        have hupdates : Updates lim g v (v.listDir g id).2 := listDir_updates hv id
        rwa [hlist] at hupdates
      split at h
      · simp at h
      · simp at h
      · rename_i raw v₂ objs₂ heq
        obtain ⟨hv₂, hlater₂, hupdates₂, hout⟩ := rebuildChildren_commits ih hv₁ heq
        have htree (w : VfsManager) (hw : Later v₂ w) : ∃ below,
            committedTrees staging dirty w (fuel + 1) id = raw :: below ∧ Adds g objs objs₂ below ∧
              Deep staging dirty w (fuel + 1) id := by
          obtain ⟨hbytes, hadds, hdeep⟩ := hout w hw
          have hlisted := hlisting w (hlater₂.trans hw)
          refine ⟨_, ?_, hadds, .dir (hlisted.symm ▸ hdeep)⟩
          rw [committedTrees, hlisted, hbytes]
          rfl
        simp only at h
        split at h <;> simp only [Option.some.injEq, Prod.mk.injEq, Except.ok.injEq] at h <;>
          obtain ⟨rfl, rfl, rfl⟩ := h
        · rename_i t ht
          refine ⟨hv₂, hlater₁.trans hlater₂, fun lim => (hupdates₁ lim).trans (hupdates₂ lim), fun w hw => ?_⟩
          obtain ⟨below, hbelow, hadds, hdeep⟩ := htree w hw
          exact ⟨raw, below, hbelow, rfl, hadds.known ⟨t, ht⟩, hdeep⟩
        · refine ⟨hv₂, hlater₁.trans hlater₂, fun lim => (hupdates₁ lim).trans (hupdates₂ lim), fun w hw => ?_⟩
          obtain ⟨below, hbelow, hadds, hdeep⟩ := htree w hw
          exact ⟨raw, below, hbelow, rfl, hadds.insert raw, hdeep⟩

end

/-! ## What the trees name -/

def GitTree.oids (t : GitTree) : List Str := t.entries.map (·.oid)

/-- An id that the base has, as far as its trees are loaded: a tree, or what a tree names. -/
def GitEngine.Has (g : GitEngine) (oid : Str) : Prop :=
  g.Loaded oid ∨ ∃ treeOid t, g.getTree treeOid = some t ∧ oid ∈ t.oids

/-- A tree, loaded or among those of the commit, names an object. -/
def Names (g : GitEngine) (trees : List Bytes) (treeOid oid : Str) : Prop :=
  ∃ t, (g.getTree treeOid = some t ∨
    ∃ raw ∈ trees, computeGitSha1 .tree raw = treeOid ∧ GitTree.parse raw = .ok t) ∧ oid ∈ t.oids

/-- A child that a tree can hold. -/
structure Entrant (child : VfsNode) : Prop where
  name : Char.ofNat 0 ∉ child.name
  oid : child.oid = [] ∨ IsOid child.oid

section

variable {g : GitEngine} {staging : StagingStore} {dirty : List Nat} {w : VfsManager} {trees : List Bytes}

theorem Entrant.childOid {child : VfsNode} (h : Entrant child) (dirty : List Nat) (tree : Nat → Bytes) :
    childOid dirty tree child = [] ∨ IsOid (childOid dirty tree child) := by
  unfold GitNfs.childOid
  split_ifs
  · exact .inr (computeGitSha1_isOid _ _)
  · exact h.oid

theorem childEntry_oid {tree : Nat → Bytes} {child : VfsNode} (h : Entrant child)
    {e : TreeEntryMode × Str × Bytes} (he : childEntry dirty tree child = some e) :
    childOid dirty tree child ≠ [] ∧ e.2.1 = child.name ∧ e.2.2.length = 20 ∧
      hexEncode e.2.2 = childOid dirty tree child := by
  unfold childEntry at he
  split_ifs at he with hempty
  obtain ⟨sha, hlen, hoid⟩ := (h.childOid dirty tree).resolve_left hempty
  rw [hoid, hexDecode_hexEncode, Option.map_some, Option.some.injEq] at he
  subst he
  exact ⟨hempty, rfl, hlen, hoid.symm⟩

/-- A tree that was written names what its children have. -/
theorem parse_children (dirty : List Nat) (tree : Nat → Bytes) (children : List VfsNode) (h : ∀ c ∈ children, Entrant c) :
    ∃ t, GitTree.parse (rawTree (children.filterMap (childEntry dirty tree))) = .ok t ∧
      ∀ oid, oid ∈ t.oids ↔ oid ≠ [] ∧ ∃ c ∈ children, childOid dirty tree c = oid := by
  have hentries : ∀ e ∈ children.filterMap (childEntry dirty tree), Char.ofNat 0 ∉ e.2.1 ∧ e.2.2.length = 20 := by
    intro e he
    obtain ⟨c, hc, hce⟩ := List.mem_filterMap.mp he
    obtain ⟨-, hname, hlen, -⟩ := childEntry_oid (h c hc) hce
    exact ⟨hname ▸ (h c hc).name, hlen⟩
  refine ⟨_, parse_rawTree _ hentries, fun oid => ?_⟩
  simp only [GitTree.oids, List.map_map, List.mem_map, List.mem_filterMap, Function.comp_apply, readBack]
  constructor
  · rintro ⟨e, ⟨c, hc, hce⟩, rfl⟩
    obtain ⟨hne, -, -, heq⟩ := childEntry_oid (h c hc) hce
    exact ⟨heq ▸ hne, c, hc, heq.symm⟩
  · rintro ⟨hne, c, hc, rfl⟩
    obtain ⟨sha, -, hsha⟩ := ((h c hc).childOid dirty tree).resolve_left hne
    have hce : childEntry dirty tree c = some (c.mode, c.name, sha) := by
      rw [childEntry, if_neg hne, hsha, hexDecode_hexEncode, Option.map_some]
    exact ⟨_, ⟨c, hc, hce⟩, hsha.symm⟩

theorem mem_validChildren {children : List VfsNode} {c : VfsNode} :
    c ∈ validChildren staging children ↔
      c ∈ children ∧ isAppleMetadata c.name = false ∧ staging.isDeleted c.id = false := by
  unfold validChildren
  rw [(sortBy_perm _ _).mem_iff, List.mem_filter, Bool.and_eq_true, Bool.not_eq_true', Bool.not_eq_true']

theorem mem_listing {d : Nat} {c : VfsNode} (h : c ∈ w.listing d) :
    ∃ i ids, w.dirChildren d = some ids ∧ i ∈ ids ∧ w.getNode i = some c := by
  obtain ⟨i, hi, hc⟩ := List.mem_filterMap.mp h
  cases hids : w.dirChildren d with
  | none => simp [hids] at hi
  | some ids => exact ⟨i, ids, rfl, by simpa [hids] using hi, hc⟩

/-- A list holds nodes that are in the tables and are not the root. -/
theorem listing_each {P : VfsNode → Prop} (hw : w.WellFormed) (h : w.Each P) {d : Nat} {c : VfsNode}
    (hc : c ∈ w.listing d) : P c := by
  obtain ⟨i, ids, hids, hi, hnode⟩ := mem_listing hc
  obtain ⟨-, -, hlist⟩ := hw.listed d ids hids
  obtain ⟨n, hroot, -⟩ := hlist i hi
  exact h i c (getNode_eq_some.mp hnode).1 hroot

theorem Deep.pos {fuel d : Nat} (h : Deep staging dirty w fuel d) : ∃ f, fuel = f + 1 := by
  cases h with
  | dir _ => exact ⟨_, rfl⟩

theorem Deep.head_mem {fuel d : Nat} (h : Deep staging dirty w fuel d) :
    (committedTrees staging dirty w fuel d).headD [] ∈ committedTrees staging dirty w fuel d := by
  obtain ⟨f, rfl⟩ := h.pos
  rw [committedTrees]
  exact List.mem_cons_self

theorem mem_committedTrees_of_child {fuel d : Nat} {child : VfsNode}
    (hchild : child ∈ validChildren staging (w.listing d)) (hdirty : (child.isDir && dirty.contains child.id) = true)
    {raw : Bytes} (hraw : raw ∈ committedTrees staging dirty w fuel child.id) :
    raw ∈ committedTrees staging dirty w (fuel + 1) d := by
  rw [committedTrees]
  refine List.mem_cons_of_mem _ (List.mem_flatMap.mpr ⟨child, hchild, ?_⟩)
  rw [if_pos hdirty]
  exact hraw

/-- The tree of a directory names what its children have. -/
theorem committedTrees_names (hw : w.WellFormed) (hall : w.Each Entrant) {fuel d : Nat}
    (hsub : ∀ raw ∈ committedTrees staging dirty w (fuel + 1) d, raw ∈ trees) {child : VfsNode}
    (hchild : child ∈ validChildren staging (w.listing d))
    (hne : childOid dirty (fun id => (committedTrees staging dirty w fuel id).headD []) child ≠ []) :
    Names g trees (computeGitSha1 .tree ((committedTrees staging dirty w (fuel + 1) d).headD []))
      (childOid dirty (fun id => (committedTrees staging dirty w fuel id).headD []) child) := by
  obtain ⟨t, ht, hoids⟩ := parse_children dirty
    (fun id => (committedTrees staging dirty w fuel id).headD []) (validChildren staging (w.listing d))
    fun c hc => listing_each hw hall (mem_validChildren.mp hc).1
  refine ⟨t, .inr ⟨_, ?_, rfl, ?_⟩, (hoids _).mpr ⟨hne, child, hchild, rfl⟩⟩
  · apply hsub
    rw [committedTrees]
    exact List.mem_cons_self
  · rw [committedTrees]
    exact ht

/-- From the tree of a directory one comes to those of the dirty directories below it. -/
theorem reach_below (hw : w.WellFormed) (hall : w.Each Entrant) {fuel d : Nat}
    (hdeep : Deep staging dirty w fuel d) (hsub : ∀ raw ∈ committedTrees staging dirty w fuel d, raw ∈ trees) :
    ∀ raw ∈ committedTrees staging dirty w fuel d, Relation.ReflTransGen (Names g trees)
      (computeGitSha1 .tree ((committedTrees staging dirty w fuel d).headD [])) (computeGitSha1 .tree raw) := by
  induction hdeep with
  | @dir fuel d hchildren ih =>
    intro raw hraw
    rw [committedTrees] at hraw
    rcases List.mem_cons.mp hraw with rfl | hraw
    · rw [committedTrees]
      exact .refl
    · obtain ⟨child, hchild, hraw⟩ := List.mem_flatMap.mp hraw
      split_ifs at hraw with hdirty
      · have hbelow := ih child hchild hdirty (fun raw h => hsub raw (mem_committedTrees_of_child hchild hdirty h)) raw hraw
        have hoid : childOid dirty (fun id => (committedTrees staging dirty w fuel id).headD []) child =
            computeGitSha1 .tree ((committedTrees staging dirty w fuel child.id).headD []) := by
          rw [childOid, if_pos hdirty]
        have hname := committedTrees_names (g := g) hw hall hsub hchild
          (hoid ▸ (computeGitSha1_isOid _ _).ne_nil)
        exact .head (hoid ▸ hname) hbelow
      · exact absurd hraw List.not_mem_nil

/-- What a tree of the commit names is a tree of the commit, or what a node of the tables has. -/
theorem committedTrees_named (hw : w.WellFormed) (hall : w.Each Entrant) {fuel d : Nat}
    (hdeep : Deep staging dirty w fuel d) : ∀ raw ∈ committedTrees staging dirty w fuel d, ∀ t,
      GitTree.parse raw = .ok t → ∀ oid ∈ t.oids,
        (∃ raw' ∈ committedTrees staging dirty w fuel d, oid = computeGitSha1 .tree raw') ∨
        oid ≠ [] ∧ ∃ d' c, c ∈ w.listing d' ∧ c.oid = oid := by
  induction hdeep with
  | @dir fuel d hchildren ih =>
    intro raw hraw t ht oid hoid
    rw [committedTrees] at hraw
    rcases List.mem_cons.mp hraw with rfl | hraw
    · obtain ⟨t', ht', hoids⟩ := parse_children dirty
        (fun id => (committedTrees staging dirty w fuel id).headD []) (validChildren staging (w.listing d))
        fun c hc => listing_each hw hall (mem_validChildren.mp hc).1
      rw [ht', Except.ok.injEq] at ht
      subst ht
      obtain ⟨hne, c, hc, hceq⟩ := (hoids oid).mp hoid
      by_cases hdirty : (c.isDir && dirty.contains c.id) = true
      · rw [childOid, if_pos hdirty] at hceq
        exact .inl ⟨_, mem_committedTrees_of_child hc hdirty (hchildren c hc hdirty).head_mem, hceq.symm⟩
      · rw [childOid, if_neg hdirty] at hceq
        exact .inr ⟨hne, d, c, (mem_validChildren.mp hc).1, hceq⟩
    · obtain ⟨child, hchild, hraw⟩ := List.mem_flatMap.mp hraw
      split_ifs at hraw with hdirty
      · rcases ih child hchild hdirty raw hraw t ht oid hoid with ⟨raw', hraw', heq⟩ | h
        · exact .inl ⟨raw', mem_committedTrees_of_child hchild hdirty hraw', heq⟩
        · exact .inr h
      · exact absurd hraw List.not_mem_nil

end

end GitNfs
