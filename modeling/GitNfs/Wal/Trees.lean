import GitNfs.Git.Unchanged
import GitNfs.Wal.Replayed

/-! # The trees that a replay writes

A tree is written from the live children of a directory. Git reads it if their names are all different and
have no byte in them that ends a name.
-/

namespace GitNfs

open VfsManager

/-- Every tree that is loaded is one that Git writes. -/
def GitEngine.CanonicalTrees (g : GitEngine) : Prop :=
  ∀ oid t, g.getTree oid = some t → ∃ es, CanonicalTree g oid es

def TreeName (name : Str) : Prop := '/' ∉ name ∧ Char.ofNat 0 ∉ name

/-- A tree that is read, with every name once and in Git's order. -/
def CanonicalBytes (data : Bytes) : Prop :=
  ∃ t, GitTree.parse data = .ok t ∧ (t.entries.map (·.name)).Nodup ∧
    t.entries.Pairwise fun a b => compareTreeEntries a.name a.mode.isDir b.name b.mode.isDir = .lt

/-! ## The order of the entries -/

theorem sortKey_slash (name : Str) : sortKey name true = asBytes (name ++ ['/']) := by
  rw [asBytes_append]
  rfl

theorem sortKey_plain (name : Str) : sortKey name false = asBytes name := List.append_nil _

/-- Only entries of one name can compare equal. -/
theorem name_of_sortKey {nameA nameB : Str} {isDirA isDirB : Bool} (hA : '/' ∉ nameA) (hB : '/' ∉ nameB)
    (h : sortKey nameA isDirA = sortKey nameB isDirB) : nameA = nameB := by
  cases isDirA <;> cases isDirB <;> simp only [sortKey_slash, sortKey_plain] at h
  · exact asBytes_injective h
  · exact absurd (asBytes_injective h ▸ List.mem_append_right _ List.mem_cons_self) hA
  · exact absurd ((asBytes_injective h).symm ▸ List.mem_append_right _ List.mem_cons_self) hB
  · exact List.append_cancel_right (asBytes_injective h)

/-- Children of different names are in strict order when they are sorted. -/
theorem validChildren_strict (staging : StagingStore) {children : List VfsNode}
    (hnames : ∀ c ∈ children, '/' ∉ c.name) (hnodup : (children.map (·.name)).Nodup) :
    ((validChildren staging children).map (·.name)).Nodup ∧
    (validChildren staging children).Pairwise
      fun a b => compareTreeEntries a.name a.isDir b.name b.isDir = .lt := by
  have hperm := sortBy_perm (fun a b : VfsNode => compareTreeEntries a.name a.isDir b.name b.isDir)
    (children.filter fun c => !isAppleMetadata c.name && !staging.isDeleted c.id)
  have hkept : ((children.filter fun c => !isAppleMetadata c.name && !staging.isDeleted c.id).map (·.name)).Nodup :=
    hnodup.sublist (List.filter_sublist.map _)
  refine ⟨(hperm.map (·.name)).nodup_iff.mpr hkept, sortBy_strict (fun c : VfsNode => sortKey c.name c.isDir) ?_⟩
  have hmem {c : VfsNode} (hc : c ∈ children.filter fun c => !isAppleMetadata c.name && !staging.isDeleted c.id) :
      '/' ∉ c.name := hnames c (List.mem_of_mem_filter hc)
  rw [List.Nodup, List.pairwise_map] at hkept ⊢
  exact hkept.imp_of_mem fun ha hb hne heq => hne (name_of_sortKey (hmem ha) (hmem hb) heq)

/-! ## Nodes that can be written -/

structure Writable (n : VfsNode) : Prop where
  name : TreeName n.name
  oid : n.oid = [] ∨ IsOid n.oid
  isDir : n.isDir = n.mode.isDir
  mode : TreeEntryMode.fromModeStr n.mode.modeStr = n.mode

/-- What a replay whose steps are as they should be gives to nodes. -/
def treeLimits : Limits where
  name := TreeName
  mode := fun mode => mode.isDir = false ∧ TreeEntryMode.fromModeStr mode.modeStr = mode
  shadow := False

variable {g : GitEngine} {v v' : VfsManager}

theorem GitEngine.CanonicalTrees.treeEntries (hg : g.CanonicalTrees) (oid : Str) :
    treeEntries g oid = [] ∨ ∃ es, CanonicalTree g oid es ∧ treeEntries g oid = es.map SpelledEntry.entry := by
  cases ht : g.getTree oid with
  | none => exact .inl (by rw [VfsManager.treeEntries, ht])
  | some t =>
    obtain ⟨es, hes⟩ := hg oid t ht
    exact .inr ⟨es, hes, hes.treeEntries_eq⟩

theorem GitEngine.CanonicalTrees.distinctNames (hg : g.CanonicalTrees) : g.DistinctNames := by
  intro oid
  rcases hg.treeEntries oid with hnil | ⟨es, hes, heq⟩
  · rw [hnil]
    exact List.nodup_nil
  · rw [heq, List.map_map]
    exact hes.distinct

theorem GitEngine.CanonicalTrees.holds (hg : g.CanonicalTrees) : Holds treeLimits g Writable where
  entry := by
    intro oid e he d i
    rcases hg.treeEntries oid with hnil | ⟨es, hes, heq⟩
    · rw [hnil] at he
      exact absurd he (by simp)
    · rw [heq] at he
      obtain ⟨s, hs, rfl⟩ := List.mem_map.mp he
      have hcanonical := hes.entries s hs
      refine ⟨⟨hcanonical.slash, hcanonical.nul⟩, .inr ⟨s.sha, hcanonical.sha, rfl⟩, rfl, ?_⟩
      exact congrArg TreeEntryMode.fromModeStr (modeStr_fromModeStr hcanonical.mode)
  file := fun _ _ _ _ hname hmode => ⟨hname, .inl rfl, hmode.1.symm, hmode.2⟩
  dir := fun _ _ _ hname => ⟨hname, .inl rfl, rfl, rfl⟩
  state := fun _ hn _ _ => ⟨hn.name, hn.oid, hn.isDir, hn.mode⟩
  place := fun _ hn _ _ hname => ⟨hname, hn.oid, hn.isDir, hn.mode⟩

/-- Tables that trees can be written from. -/
structure Tidy (v : VfsManager) : Prop where
  wellFormed : v.WellFormed
  attached : v.Attached
  each : v.Each Writable

namespace Tidy

theorem new (rootOid : Str) : Tidy (VfsManager.new rootOid) := ⟨.new rootOid, .new rootOid, .new rootOid⟩

theorem updates (hg : g.CanonicalTrees) (h : Tidy v) (hupdates : Updates treeLimits g v v') : Tidy v' where
  wellFormed := hupdates.wellFormed h.wellFormed
  attached := hupdates.keeps (fun _ _ hv hupdate ha => ha.update id hg.distinctNames hv hupdate) h.attached
  each := hupdates.keeps (fun _ _ hv hupdate he => he.update hg.holds hv hupdate) h.each

theorem setOid (h : Tidy v) (id : Nat) {oid : Str} (hoid : IsOid oid) : Tidy (setOid v id oid) where
  wellFormed := h.wellFormed.modifyNode id _ (fun _ => ⟨rfl, rfl, rfl, rfl⟩) fun _ _ => rfl
  attached := h.attached.modify id _ fun _ => ⟨rfl, rfl, rfl⟩
  each := h.each.modify id fun _ hn => ⟨hn.name, .inr hoid, hn.isDir, hn.mode⟩

/-- The children that a tree is written from. -/
theorem listDir (hg : g.CanonicalTrees) (h : Tidy v) {d : Nat} {children : List VfsNode}
    (hlist : v.listDir g d = (.ok children, v')) :
    Tidy v' ∧ (children.map (·.name)).Nodup ∧ ∀ c ∈ children, Writable c := by
  have htidy := h.updates hg (listDir_updates h.wellFormed d)
  rw [hlist] at htidy
  refine ⟨htidy, ?_⟩
  unfold VfsManager.listDir at hlist
  split at hlist
  · simp at hlist
  · rename_i v₁ hpop
    obtain ⟨hv₁, ids, hids⟩ := h.wellFormed.ensureDirPopulated_ok hpop
    simp only [Prod.mk.injEq, Except.ok.injEq, hids, Option.getD_some] at hlist
    obtain ⟨rfl, rfl⟩ := hlist
    refine ⟨htidy.attached.names_nodup hv₁ hids, fun c hc => ?_⟩
    obtain ⟨i, hi, hci⟩ := List.mem_filterMap.mp hc
    obtain ⟨m, hroot, -, -⟩ := (hv₁.listed d ids hids).2.2 i hi
    exact htidy.each i c (getNode_eq_some.mp hci).1 hroot

end Tidy

/-! ## The bytes of a tree -/

/-- The bytes of entries that some of the children make, in their order. -/
theorem rebuildChildren_writes {dirty : List Nat} {rebuild : Nat → VfsManager → NewObjects → TreeResult Str}
    {I : VfsManager → NewObjects → Prop}
    (hrebuild : ∀ id v objs res v' objs', I v objs → rebuild id v objs = some (res, v', objs') →
      I v' objs' ∧ ∀ oid, res = .ok oid → IsOid oid)
    {children : List VfsNode} (hchildren : ∀ c ∈ children, Writable c) {v v' : VfsManager}
    {objs objs' : NewObjects} {raw : Bytes} {res : Except Error Bytes} (hI : I v objs)
    (h : rebuildChildren dirty rebuild children v objs raw = some (res, v', objs')) :
    I v' objs' ∧ ∀ out, res = .ok out → ∃ es : List (TreeEntryMode × Str × Bytes), out = raw ++ rawTree es ∧
      (es.map fun e => (e.1, e.2.1)).Sublist (children.map fun c => (c.mode, c.name)) ∧
      ∀ e ∈ es, e.2.2.length = 20 := by
  induction children generalizing v objs raw with
  | nil =>
    simp only [rebuildChildren, Option.some.injEq, Prod.mk.injEq] at h
    obtain ⟨rfl, rfl, rfl⟩ := h
    exact ⟨hI, fun out hout => ⟨[], by rw [← Except.ok.inj hout]; exact (List.append_nil _).symm, .slnil,
      by simp⟩⟩
  | cons child children ih =>
    have hrest := fun c hc => hchildren c (List.mem_cons_of_mem _ hc)
    have hchild : ∀ r v₁ objs₁,
        (if child.isDir && dirty.contains child.id then rebuild child.id v objs
          else some (.ok child.oid, v, objs)) = some (r, v₁, objs₁) →
        I v₁ objs₁ ∧ ∀ oid, r = .ok oid → oid = [] ∨ IsOid oid := by
      intro r v₁ objs₁ heq
      split_ifs at heq
      · obtain ⟨hI₁, hoid⟩ := hrebuild _ _ _ _ _ _ hI heq
        exact ⟨hI₁, fun oid hr => .inr (hoid oid hr)⟩
      · simp only [Option.some.injEq, Prod.mk.injEq] at heq
        obtain ⟨rfl, rfl, rfl⟩ := heq
        exact ⟨hI, fun oid hr => Except.ok.inj hr ▸ (hchildren child List.mem_cons_self).oid⟩
    rw [rebuildChildren] at h
    split at h
    · simp at h
    · rename_i heq
      simp only [Option.some.injEq, Prod.mk.injEq] at h
      obtain ⟨rfl, rfl, rfl⟩ := h
      exact ⟨(hchild _ _ _ heq).1, fun out hout => by simp at hout⟩
    · rename_i childOid v₁ objs₁ heq
      obtain ⟨hI₁, hoid⟩ := hchild _ _ _ heq
      split_ifs at h with hempty
      · obtain ⟨hI', hwrites⟩ := ih hrest hI₁ h
        refine ⟨hI', fun out hout => ?_⟩
        obtain ⟨es, heq, hsub, hlen⟩ := hwrites out hout
        exact ⟨es, heq, hsub.cons _, hlen⟩
      · obtain ⟨sha, hlen, rfl⟩ := (hoid childOid rfl).resolve_left hempty
        rw [hexDecode_hexEncode] at h
        obtain ⟨hI', hwrites⟩ := ih hrest hI₁ h
        refine ⟨hI', fun out hout => ?_⟩
        obtain ⟨es, heq, hsub, hshas⟩ := hwrites out hout
        refine ⟨(child.mode, child.name, sha) :: es, ?_, hsub.cons_cons _, fun e he => ?_⟩
        · rw [heq, List.append_assoc, rawTree, rawTree, List.flatMap_cons]
        · rcases List.mem_cons.mp he with rfl | he
          · exact hlen
          · exact hshas e he

/-- Entries of sorted children are a tree that Git would write. -/
theorem canonicalBytes_of_children {children : List VfsNode} (hchildren : ∀ c ∈ children, Writable c)
    (hnodup : (children.map (·.name)).Nodup)
    (hsorted : children.Pairwise fun a b => compareTreeEntries a.name a.isDir b.name b.isDir = .lt)
    {es : List (TreeEntryMode × Str × Bytes)}
    (hsub : (es.map fun e => (e.1, e.2.1)).Sublist (children.map fun c => (c.mode, c.name)))
    (hshas : ∀ e ∈ es, e.2.2.length = 20) : CanonicalBytes (rawTree es) := by
  have hchild : ∀ e ∈ es, ∃ c ∈ children, c.mode = e.1 ∧ c.name = e.2.1 := by
    intro e he
    obtain ⟨c, hc, heq⟩ := List.mem_map.mp (hsub.subset (List.mem_map_of_mem he))
    exact ⟨c, hc, (Prod.mk.inj heq).1, (Prod.mk.inj heq).2⟩
  have hread : es.map readBack = es.map fun e => ⟨e.1, e.2.1, hexEncode e.2.2⟩ := by
    refine List.map_congr_left fun e he => ?_
    obtain ⟨c, hc, hmode, -⟩ := hchild e he
    rw [readBack, ← hmode, (hchildren c hc).mode]
  refine ⟨⟨es.map readBack⟩, parse_rawTree es fun e he => ⟨?_, hshas e he⟩, ?_, ?_⟩
  · obtain ⟨c, hc, -, hname⟩ := hchild e he
    exact hname ▸ (hchildren c hc).name.2
  · have hnames : (es.map readBack).map (·.name) = (es.map fun e => (e.1, e.2.1)).map Prod.snd := by
      rw [hread, List.map_map, List.map_map]
      rfl
    have hchildNames : (children.map fun c => (c.mode, c.name)).map Prod.snd = children.map (·.name) := by
      rw [List.map_map]
      rfl
    rw [hnames]
    exact (hchildNames ▸ hnodup).sublist (hsub.map _)
  · have hpairs : (children.map fun c => (c.mode, c.name)).Pairwise
        fun a b => compareTreeEntries a.2 a.1.isDir b.2 b.1.isDir = .lt := by
      rw [List.pairwise_map]
      refine hsorted.imp_of_mem fun ha hb hab => ?_
      rwa [← (hchildren _ ha).isDir, ← (hchildren _ hb).isDir]
    simp only [hread]
    rw [List.pairwise_map]
    exact List.pairwise_map.mp (hpairs.sublist hsub)

/-! ## The objects of a commit -/

def CanonicalObjects (objs : NewObjects) : Prop :=
  ∀ k obj, objs.lookup k = some obj → obj.objType = .tree → CanonicalBytes obj.data

theorem CanonicalObjects.insert {objs : NewObjects} (h : CanonicalObjects objs) (k : Str) {obj : GitObjectToPack}
    (hobj : obj.objType = .tree → CanonicalBytes obj.data) : CanonicalObjects (AList.insert k obj objs) := by
  intro k' obj' hlookup
  by_cases hk : k' = k
  · subst hk
    rw [AList.lookup_insert, Option.some.injEq] at hlookup
    exact hlookup ▸ hobj
  · rw [AList.lookup_insert_ne hk] at hlookup
    exact h k' obj' hlookup

theorem stagedBlobs_tidy {staging : StagingStore} {ids : List Nat} {objs objs' : NewObjects} (hv : Tidy v)
    (hobjs : CanonicalObjects objs) (h : stagedBlobs staging ids v objs = .ok (v', objs')) :
    Tidy v' ∧ CanonicalObjects objs' := by
  induction ids generalizing v objs with
  | nil =>
    simp only [stagedBlobs, Except.ok.injEq, Prod.mk.injEq] at h
    exact ⟨h.1 ▸ hv, h.2 ▸ hobjs⟩
  | cons id ids ih =>
    rw [stagedBlobs] at h
    split at h
    · exact ih hv hobjs h
    · split_ifs at h
      · exact ih hv hobjs h
      · split at h
        · simp at h
        · exact ih hv hobjs h
        · exact ih (hv.setOid id (computeGitSha1_isOid _ _)) (hobjs.insert _ fun hblob => by simp at hblob) h

/-- One directory: what its tree is written from stays tidy, and the tree is one that Git would write. -/
theorem rebuildTreeRecursive_tidy (hg : g.CanonicalTrees) {staging : StagingStore} {dirty : List Nat} {fuel : Nat} :
    ∀ id v objs res v' objs', Tidy v ∧ CanonicalObjects objs →
      rebuildTreeRecursive g staging dirty fuel id v objs = some (res, v', objs') →
      (Tidy v' ∧ CanonicalObjects objs') ∧ ∀ oid, res = .ok oid → IsOid oid := by
  induction fuel with
  | zero =>
    intro id v objs res v' objs' _ h
    simp [rebuildTreeRecursive] at h
  | succ fuel ih =>
    intro id v objs res v' objs' hI h
    refine ⟨?_, fun oid hok => rebuildTreeRecursive_isOid (hok ▸ h)⟩
    rw [rebuildTreeRecursive] at h
    split at h
    · rename_i e v₁ hlist
      simp only [Option.some.injEq, Prod.mk.injEq] at h
      have htidy := hI.1.updates hg (listDir_updates hI.1.wellFormed id)
      rw [hlist] at htidy
      exact ⟨h.2.1 ▸ htidy, h.2.2 ▸ hI.2⟩
    · rename_i children v₁ hlist
      obtain ⟨htidy, hnodup, hwritable⟩ := hI.1.listDir hg hlist
      obtain ⟨hnames, hsorted⟩ := validChildren_strict staging (fun c hc => (hwritable c hc).name.1) hnodup
      have hvalid : ∀ c ∈ validChildren staging children, Writable c := fun c hc =>
        hwritable c (List.mem_of_mem_filter ((sortBy_perm _ _).mem_iff.mp hc))
      split at h
      · simp at h
      · rename_i heq
        simp only [Option.some.injEq, Prod.mk.injEq] at h
        obtain ⟨-, rfl, rfl⟩ := h
        exact (rebuildChildren_writes (I := fun v objs => Tidy v ∧ CanonicalObjects objs) ih hvalid
          ⟨htidy, hI.2⟩ heq).1
      · rename_i rawTree' v₂ objs₂ heq
        obtain ⟨⟨htidy₂, hobjs₂⟩, hwrites⟩ := rebuildChildren_writes
          (I := fun v objs => Tidy v ∧ CanonicalObjects objs) ih hvalid ⟨htidy, hI.2⟩ heq
        obtain ⟨es, hraw, hsub, hshas⟩ := hwrites rawTree' rfl
        have hbytes : CanonicalBytes rawTree' := by
          rw [hraw, List.nil_append]
          exact canonicalBytes_of_children hvalid hnames hsorted hsub hshas
        simp only at h
        split at h <;> simp only [Option.some.injEq, Prod.mk.injEq] at h
        · exact ⟨h.2.1 ▸ htidy₂, h.2.2 ▸ hobjs₂⟩
        · exact ⟨h.2.1 ▸ htidy₂, h.2.2 ▸ hobjs₂.insert _ fun _ => hbytes⟩

theorem rebuildGitObjects_canonical (hg : g.CanonicalTrees) {staging : StagingStore} {base author message : Str}
    {timestamp : Nat} {rebuilt : RebuiltObjects} (hv : Tidy v)
    (h : rebuildGitObjects v staging g base author message timestamp = some (.ok rebuilt)) :
    ∀ obj ∈ rebuilt.objects, obj.objType = .tree → CanonicalBytes obj.data := by
  obtain ⟨v₁, objs, dirty, v₂, objs', text, hblobs, -, hroot, -, hobjects⟩ := rebuildGitObjects_parts h
  obtain ⟨hv₁, hobjs⟩ := stagedBlobs_tidy hv (fun k obj hk => by simp at hk) hblobs
  obtain ⟨⟨-, hobjs'⟩, -⟩ := rebuildTreeRecursive_tidy hg _ _ _ _ _ _ ⟨hv₁, hobjs⟩ hroot
  intro obj hobj
  rw [hobjects, NewObjects.mem_values] at hobj
  obtain ⟨k, hk⟩ := hobj
  exact hobjs'.insert _ (fun hcommit => by simp at hcommit) k obj hk

/-! ## Over a replay -/

/-- The entry makes no directory over a name that is taken, and has no NUL in its paths. -/
def WalEntry.Orderly (g : GitEngine) (r : Replay) (entry : WalEntry) : Prop :=
  ∀ payload, entry.payload = some payload →
    payload.FreshDir g r ∧ ∀ path ∈ payload.paths, Char.ofNat 0 ∉ path

theorem treeLimits_createsWith : Replay.CreatesWith treeLimits := ⟨⟨rfl, rfl⟩, ⟨rfl, rfl⟩, ⟨rfl, rfl⟩⟩

theorem Tidy.replayStep (hg : g.CanonicalTrees) {r r' : Replay} {entry : WalEntry} (h : Tidy r.vfs)
    (horderly : entry.Orderly g r) (hstep : replayStep g r entry = some r') : Tidy r'.vfs := by
  cases hpayload : entry.payload with
  | none =>
    simp only [GitNfs.replayStep, hpayload, Option.some.injEq] at hstep
    exact hstep ▸ h
  | some payload =>
    obtain ⟨hfresh, hpaths⟩ := horderly payload hpayload
    refine h.updates hg (Replay.replayPayload_updates h.wellFormed treeLimits_createsWith
      (fun path hpath part hpart => ?_) (.inr hfresh) ((replayStep_some hpayload).mp hstep))
    rw [components_trimMatches] at hpart
    obtain ⟨-, hslash, hchars⟩ := mem_components hpart
    exact ⟨hslash, fun hnul => hpaths path hpath (hchars _ hnul)⟩

/-- Over a base of such trees, a replay that makes no directory over a name that is taken and brings in no NUL
writes such trees. -/
theorem replayed_trees_canonical {rootOid base author message : Str} {timestamp : Nat} {entries : List WalEntry}
    {r : Replay} {rebuilt : RebuiltObjects} (hg : g.CanonicalTrees)
    (hmeets : Run.Meets (replayStep g) (fun r entry => entry.Orderly g r) (Replay.new rootOid) entries)
    (hreplay : replayWalEntries g entries (Replay.new rootOid) = .ok r)
    (hrebuild : rebuildGitObjects r.vfs r.staging g base author message timestamp = some (.ok rebuilt)) :
    ∀ obj ∈ rebuilt.objects, obj.objType = .tree → CanonicalBytes obj.data := by
  have htidy := Run.invariant (I := fun r : Replay => Tidy r.vfs)
    (fun r entry r' h horderly hstep => h.replayStep hg horderly hstep) hmeets (run_replayStep.mpr hreplay)
    (Tidy.new rootOid)
  exact rebuildGitObjects_canonical hg htidy hrebuild

/-! ### Three replays -/

def rebuiltFrom (g : GitEngine) (rootOid : Str) (entries : List WalEntry) : Option RebuiltObjects :=
  (replayWalEntries g entries (Replay.new rootOid)).toOption.bind fun r =>
    (rebuildGitObjects r.vfs r.staging g [] [] ['m'] 0).bind Except.toOption

theorem toOption_eq_some {ε α : Type} {x : Except ε α} {a : α} (h : x.toOption = some a) : x = .ok a := by
  cases x with
  | error e => simp [Except.toOption] at h
  | ok b => exact congrArg _ (Option.some.inj h)

theorem rebuiltFrom_some {rootOid : Str} {entries : List WalEntry} {rebuilt : RebuiltObjects}
    (h : rebuiltFrom g rootOid entries = some rebuilt) :
    ∃ r, replayWalEntries g entries (Replay.new rootOid) = .ok r ∧
      rebuildGitObjects r.vfs r.staging g [] [] ['m'] 0 = some (.ok rebuilt) := by
  obtain ⟨r, hr, hrebuilt⟩ := Option.bind_eq_some_iff.mp h
  refine ⟨r, toOption_eq_some hr, ?_⟩
  obtain ⟨res, hres, hok⟩ := Option.bind_eq_some_iff.mp hrebuilt
  rw [hres, toOption_eq_some hok]

theorem sampleTable_canonicalTrees : sampleTable.CanonicalTrees := by
  intro oid t ht
  rw [sampleTable_getTree, sampleTrees] at ht
  split_ifs at ht with htop hsub
  · exact ⟨_, htop ▸ sampleTop_canonical⟩
  · exact ⟨_, hsub ▸ sampleSub_canonical⟩

def mkdirEntry (path : Str) : WalEntry := ⟨0, 0, some (.mkdir path)⟩

def createEntry (path : Str) : WalEntry := ⟨0, 0, some (.createFile ⟨path, 0, 0o644⟩)⟩

/-- A tree that cannot be read, or has a name twice. -/
def badTree (obj : GitObjectToPack) : Bool :=
  obj.objType = .tree && ((GitTree.parse obj.data).toOption.all fun t => !decide (t.entries.map (·.name)).Nodup)

theorem not_canonical_of_badTree {obj : GitObjectToPack} (h : badTree obj = true) :
    obj.objType = .tree ∧ ¬ CanonicalBytes obj.data := by
  unfold badTree at h
  rw [Bool.and_eq_true, decide_eq_true_eq] at h
  refine ⟨h.1, ?_⟩
  rintro ⟨t, ht, hnodup, -⟩
  have hall := h.2
  rw [ht] at hall
  simp [Except.toOption, hnodup] at hall

def newDir : List WalEntry := [mkdirEntry "e".toList, createEntry "e/f".toList]

theorem newDir_orderly :
    Run.Meets (replayStep sampleTable) (fun r entry => entry.Orderly sampleTable r) (Replay.new sampleTopOid) newDir := by
  refine ⟨fun payload hpayload => ?_, fun s' _ => ⟨fun payload hpayload => ?_, fun _ _ => trivial⟩⟩
  · obtain rfl := Option.some.inj hpayload
    refine ⟨fun parentId name vfs hparent => ?_, by decide⟩
    have hroot : (Replay.new sampleTopOid).vfs.ensureParentDirs sampleTable "e".toList =
        (.ok (rootInode, "e".toList), VfsManager.new sampleTopOid) := rfl
    rw [hroot] at hparent
    obtain ⟨hok, rfl⟩ := Prod.mk.inj hparent
    obtain ⟨rfl, rfl⟩ := Prod.mk.inj (Except.ok.inj hok)
    decide +kernel
  · obtain rfl := Option.some.inj hpayload
    exact ⟨trivial, by decide⟩

theorem replayed_trees_canonical_newDir :
    ∃ r rebuilt, replayWalEntries sampleTable newDir (Replay.new sampleTopOid) = .ok r ∧
      rebuildGitObjects r.vfs r.staging sampleTable [] [] ['m'] 0 = some (.ok rebuilt) ∧
      ∀ obj ∈ rebuilt.objects, obj.objType = .tree → CanonicalBytes obj.data := by
  have hsome : (rebuiltFrom sampleTable sampleTopOid newDir).isSome := by decide +kernel
  obtain ⟨rebuilt, hrebuilt⟩ := Option.isSome_iff_exists.mp hsome
  obtain ⟨r, hreplay, hrebuild⟩ := rebuiltFrom_some hrebuilt
  exact ⟨r, rebuilt, hreplay, hrebuild, replayed_trees_canonical sampleTable_canonicalTrees newDir_orderly hreplay hrebuild⟩

/-- A directory made over a directory of the base, and a name with a NUL. -/
theorem replayed_trees_not_canonical :
    sampleTable.CanonicalTrees ∧
    ∀ entries ∈ [[mkdirEntry "a".toList, createEntry "a/f".toList], [createEntry ['x', Char.ofNat 0, 'y']]],
      ∃ r rebuilt, replayWalEntries sampleTable entries (Replay.new sampleTopOid) = .ok r ∧
        rebuildGitObjects r.vfs r.staging sampleTable [] [] ['m'] 0 = some (.ok rebuilt) ∧
        ∃ obj ∈ rebuilt.objects, obj.objType = .tree ∧ ¬ CanonicalBytes obj.data := by
  refine ⟨sampleTable_canonicalTrees, fun entries hentries => ?_⟩
  have hbad : ((rebuiltFrom sampleTable sampleTopOid entries).any fun rebuilt => rebuilt.objects.any badTree) = true := by
    rcases List.mem_cons.mp hentries with rfl | hentries
    · decide +kernel
    · obtain rfl := List.mem_singleton.mp hentries
      decide +kernel
  rw [Option.any_eq_true] at hbad
  obtain ⟨rebuilt, hrebuilt, hany⟩ := hbad
  obtain ⟨obj, hobj, hbad⟩ := List.any_eq_true.mp hany
  obtain ⟨r, hreplay, hrebuild⟩ := rebuiltFrom_some hrebuilt
  exact ⟨r, rebuilt, hreplay, hrebuild, obj, hobj, not_canonical_of_badTree hbad⟩

end GitNfs
