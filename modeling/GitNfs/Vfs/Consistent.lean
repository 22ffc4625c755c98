import GitNfs.Vfs.Calls

/-! # Names and nodes agree

Every live node stands under its name, and every name leads to a live node. Two calls can break this: a
`mkdir` over a name that is taken, and a `rename` of a name onto itself.
-/

namespace GitNfs

/-- The trees of the base have no name twice. -/
def GitEngine.DistinctNames (g : GitEngine) : Prop :=
  ∀ oid, ((VfsManager.treeEntries g oid).map (·.name)).Nodup

/-- A move to another name. -/
def VfsCall.elsewhere : VfsCall.Move := fun _ _ src dst => src ≠ dst

/-- The call makes no directory over a name that is taken and renames no name onto itself. -/
def VfsCall.KeepsNames (g : GitEngine) (v : VfsManager) (call : VfsCall) : Prop :=
  call.FreshDir g v ∧ call.Moves g VfsCall.elsewhere v

namespace VfsManager

variable {g : GitEngine} {v v' : VfsManager}

theorem entry_unique (hg : g.DistinctNames) {oid : Str} {a b : Nat} {e e' : GitTreeEntry}
    (he : (treeEntries g oid)[a]? = some e) (he' : (treeEntries g oid)[b]? = some e')
    (hname : e.name = e'.name) : a = b := by
  have hlt : a < ((treeEntries g oid).map (·.name)).length := by
    rw [List.length_map]
    exact (List.getElem?_eq_some_iff.mp he).1
  apply (List.getElem?_inj hlt (hg oid)).mp
  rw [List.getElem?_map, List.getElem?_map, he, he', Option.map_some, Option.map_some, hname]

/-- Every entry of a directory that was just populated stands under its name. -/
theorem populate_mapped (hg : g.DistinctNames) (hv : v.WellFormed) {d : Nat} (hd : v.dirChildren d = none)
    {oid : Str} {a : Nat} {e : GitTreeEntry} (he : (treeEntries g oid)[a]? = some e) :
    (v.populate g d oid).childMap (d, e.name) = some (v.nextInode + a) := by
  rcases populate_childMap (hv.unmapped hd) g oid (d, e.name) with ⟨-, hnone⟩ | ⟨-, b, e', he', hname, h⟩
  · exact absurd rfl (hnone rfl e (List.mem_of_getElem? he))
  · rw [h, entry_unique hg he he' hname.symm]

/-! ## Live nodes stand under their names -/

theorem getNode_eq_some {i : Nat} {n : VfsNode} :
    v.getNode i = some n ↔ v.nodes i = some n ∧ n.isDeleted = false := by
  unfold getNode
  cases v.nodes i with
  | none => simp
  | some m =>
    cases hdel : m.isDeleted
    · simp only [hdel, Bool.false_eq_true, if_false, Option.some.injEq]
      constructor
      · rintro rfl
        exact ⟨rfl, hdel⟩
      · exact And.left
    · simp only [hdel, if_true, Option.some.injEq, false_iff, not_and, reduceCtorEq]
      rintro rfl
      simp [hdel]

theorem liveChild_eq_some {d i : Nat} {name : Str} :
    v.liveChild d name = some i ↔ v.childMap (d, name) = some i ∧ ∃ n, v.getNode i = some n := by
  unfold liveChild
  cases v.childMap (d, name) with
  | none => simp
  | some j =>
    simp only [Option.map_eq_some_iff, Option.some.injEq]
    constructor
    · rintro ⟨n, hn, rfl⟩
      exact ⟨rfl, n, hn⟩
    · rintro ⟨rfl, n, hn⟩
      exact ⟨n, hn, rfl⟩

def Attached (v : VfsManager) : Prop :=
  ∀ i n, v.nodes i = some n → n.isDeleted = false → i ≠ rootInode → v.childMap (n.parentId, n.name) = some i

theorem Attached.new (rootOid : Str) : (VfsManager.new rootOid).Attached := by
  intro i n hn _ hroot
  simp [VfsManager.new, hroot] at hn

theorem Attached.change {al : Allowed} (hover : ¬ al.shadow) (hg : g.DistinctNames) (hv : v.WellFormed)
    (h : v.Attached) (hchange : Change al g v v') : v'.Attached := by
  intro j m hm hlive hroot
  cases hchange with
  | @populate d dir hd hdir hisDir =>
    rcases populate_nodes_cases hv hd hm with hold | ⟨k, e, he, rfl, rfl⟩
    · have hj := h j m hold hlive hroot
      rcases populate_childMap (hv.unmapped hd) g dir.oid (m.parentId, m.name) with ⟨heq, -⟩ | ⟨hp, -⟩
      · rw [heq, hj]
      · rw [show m.parentId = d from hp, hv.unmapped hd] at hj
        simp at hj
    · exact populate_mapped hg hv hd he
  | revive _ hi hn hmap hnodes =>
    rw [hmap]
    rw [hnodes] at hm
    split_ifs at hm with hj
    · simp only [Option.some.injEq] at hm
      subst hm
      obtain ⟨n', hn', hp, hname, -⟩ := mapped_node hv hi
      rw [hn, Option.some.injEq] at hn'
      subst hn'
      rw [hj, hp, hname]
      exact hi
    · exact h j m hm hlive hroot
  | add hid _ _ hdir _ hfree hmap hnodes =>
    rw [hnodes] at hm
    rw [hmap]
    split_ifs at hm with hj
    · simp only [Option.some.injEq] at hm
      subst hm
      rw [if_pos rfl, hj]
    · have hjm := h j m hm hlive hroot
      rw [if_neg, hjm]
      -- the name was free, so no live node has it
      intro hk
      rw [hk] at hjm
      have hnone := hfree.resolve_left hover
      rw [liveChild_eq_some.mpr ⟨hjm, m, getNode_eq_some.mpr ⟨hm, hlive⟩⟩] at hnone
      simp at hnone
  | @remove k i _ hi hmap hnodes =>
    rw [hnodes] at hm
    rw [hmap]
    split_ifs at hm with hj
    · obtain ⟨n, -, rfl⟩ := Option.map_eq_some_iff.mp hm
      simp [kill] at hlive
    · have hjm := h j m hm hlive hroot
      rw [if_neg, hjm]
      intro hk
      rw [hk, hi, Option.some.injEq] at hjm
      exact hj hjm.symm
  | @move src dst i n _ hi hn _ _ _ hmap hnodes =>
    rw [hnodes] at hm
    rw [hmap]
    split_ifs at hm with hj hdst
    · simp only [Option.some.injEq] at hm
      subst hm
      rw [hj]
      exact if_pos rfl
    · obtain ⟨n, -, rfl⟩ := Option.map_eq_some_iff.mp hm
      simp [kill] at hlive
    · have hjm := h j m hm hlive hroot
      have hnot : (m.parentId, m.name) ≠ dst := by
        rintro rfl
        exact hdst hjm
      rw [if_neg hnot, if_neg, hjm]
      intro hk
      rw [hk, hi, Option.some.injEq] at hjm
      exact hj hjm.symm

/-! ## Names lead to live nodes -/

def NamesLive (v : VfsManager) : Prop :=
  ∀ k i n, v.childMap k = some i → v.nodes i = some n → n.isDeleted = false

theorem NamesLive.new (rootOid : Str) : (VfsManager.new rootOid).NamesLive := by
  intro k i n hk
  simp [VfsManager.new] at hk

theorem NamesLive.change {al : Allowed} (hal : al.move = VfsCall.elsewhere) (hv : v.WellFormed)
    (h : v.NamesLive) (hchange : Change al g v v') : v'.NamesLive := by
  intro k j m hk hm
  cases hchange with
  | @populate d dir hd hdir hisDir =>
    rcases populate_nodes_cases hv hd hm with hold | ⟨a, e, he, rfl, rfl⟩
    · rcases populate_childMap (hv.unmapped hd) g dir.oid k with ⟨heq, -⟩ | ⟨-, a, e, -, -, heq⟩
      · exact h k j m (heq ▸ hk) hold
      · rw [hk, Option.some.injEq] at heq
        have := hv.fresh j m hold
        omega
    · rfl
  | revive _ hi hn hmap hnodes =>
    rw [hmap] at hk
    rw [hnodes] at hm
    split_ifs at hm
    · simp only [Option.some.injEq] at hm
      subst hm
      rfl
    · exact h k j m hk hm
  | add hid hlive _ _ _ _ hmap hnodes =>
    rw [hnodes] at hm
    split_ifs at hm with hj
    · simp only [Option.some.injEq] at hm
      exact hm ▸ hlive
    · rw [hmap] at hk
      split_ifs at hk
      · exact absurd (Option.some.inj hk).symm hj
      · exact h k j m hk hm
  | remove hi hmap hnodes =>
    rw [hmap] at hk
    split_ifs at hk with hkey
    rw [hnodes] at hm
    split_ifs at hm with hj
    · exact absurd (mapped_unique hv hk (hj ▸ hi)) hkey
    · exact h k j m hk hm
  | @move src dst i n _ hi hn _ _ hmove hmap hnodes =>
    rw [hnodes] at hm
    split_ifs at hm with hj hdst
    · simp only [Option.some.injEq] at hm
      subst hm
      rw [hal] at hmove
      simp only [moved, h src i n hi hn, Bool.false_or, decide_eq_false_iff_not]
      exact hmove
    · rw [hmap] at hk
      split_ifs at hk with hkd hks
      · exact absurd (Option.some.inj hk).symm hj
      · exact absurd (mapped_unique hv hk hdst) hkd
    · rw [hmap] at hk
      split_ifs at hk
      · exact absurd (Option.some.inj hk).symm hj
      · exact h k j m hk hm

/-! ## The invariant of the representation -/

/-- In every directory that is populated the list, the names and the nodes agree. -/
def Consistent (v : VfsManager) : Prop :=
  ∀ d ids, v.dirChildren d = some ids →
    ids.Nodup ∧
    (∀ name i, v.childMap (d, name) = some i →
      (∃ n, v.nodes i = some n ∧ n.isDeleted = false ∧ n.parentId = d ∧ n.name = name) ∧ i ∈ ids) ∧
    ∀ i ∈ ids, ∀ n, v.nodes i = some n → n.isDeleted = false → v.childMap (d, n.name) = some i

theorem WellFormed.consistent (hv : v.WellFormed) (ha : v.Attached) (hl : v.NamesLive) : v.Consistent := by
  intro d ids hids
  obtain ⟨hnodup, -, hlist⟩ := hv.listed d ids hids
  refine ⟨hnodup, fun name i hi => ?_, fun i hi n hn hlive => ?_⟩
  · obtain ⟨⟨n, ⟨-, hn, hp⟩, hname⟩, ids', hids', hmem⟩ := hv.child d name i hi
    rw [hids, Option.some.injEq] at hids'
    subst hids'
    exact ⟨⟨n, hn, hl _ i n hi hn, hp, hname⟩, hmem⟩
  · obtain ⟨m, hroot, hm, hp⟩ := hlist i hi
    rw [hn, Option.some.injEq] at hm
    subst hm
    exact hp ▸ ha i n hn hlive hroot

/-- What a client sees of a directory: no name twice, and a lookup finds what the list shows. -/
def ListsNames (g : GitEngine) (v : VfsManager) : Prop :=
  ∀ d nodes v', v.listDir g d = (.ok nodes, v') →
    (nodes.map (·.name)).Nodup ∧
    ∀ name, name ≠ ['.'] → name ≠ ['.', '.'] → ∀ i,
      (v.lookup g d name).1 = .ok i ↔ ∃ n ∈ nodes, n.name = name ∧ n.id = i

theorem Consistent.listed_live (h : v.Consistent) (hv : v.WellFormed) {d : Nat} {ids : List Nat}
    (hids : v.dirChildren d = some ids) {name : Str} {i : Nat} :
    v.liveChild d name = some i ↔ ∃ n ∈ ids.filterMap v.getNode, n.name = name ∧ n.id = i := by
  obtain ⟨-, hchild, hmapped⟩ := h d ids hids
  rw [liveChild_eq_some]
  constructor
  · rintro ⟨hi, n, hn⟩
    obtain ⟨⟨m, hm, -, -, hname⟩, hmem⟩ := hchild name i hi
    obtain ⟨hn', -⟩ := getNode_eq_some.mp hn
    rw [hm, Option.some.injEq] at hn'
    subst hn'
    exact ⟨m, List.mem_filterMap.mpr ⟨i, hmem, hn⟩, hname, hv.id_eq i m hm⟩
  · rintro ⟨n, hn, rfl, rfl⟩
    obtain ⟨i, hi, hget⟩ := List.mem_filterMap.mp hn
    obtain ⟨hni, hlive⟩ := getNode_eq_some.mp hget
    rw [hv.id_eq i n hni]
    exact ⟨hmapped i hi n hni hlive, n, hget⟩

theorem Consistent.names_nodup (h : v.Consistent) (hv : v.WellFormed) {d : Nat} {ids : List Nat}
    (hids : v.dirChildren d = some ids) : ((ids.filterMap v.getNode).map (·.name)).Nodup := by
  have hid {i : Nat} {n : VfsNode} (hn : v.getNode i = some n) : n.id = i :=
    hv.id_eq i n (getNode_eq_some.mp hn).1
  apply List.Nodup.map_on
  · intro n hn m hm hname
    have hfind := (h.listed_live hv hids).mpr ⟨n, hn, rfl, rfl⟩
    rw [hname, (h.listed_live hv hids).mpr ⟨m, hm, rfl, rfl⟩, Option.some.injEq] at hfind
    obtain ⟨i, -, hi⟩ := List.mem_filterMap.mp hn
    obtain ⟨j, -, hj⟩ := List.mem_filterMap.mp hm
    rw [hid hi, hid hj] at hfind
    rw [← hfind, hj, Option.some.injEq] at hi
    exact hi.symm
  · exact (h d ids hids).1.filterMap fun i j n hi hj => (hid hi).symm.trans (hid hj)

/-- A lookup by name ends at the live child, after the directory was populated. -/
theorem lookup_live {d : Nat} {name : Str} (hv : v.WellFormed) (hdot : name ≠ ['.'])
    (hdots : name ≠ ['.', '.']) {v₁ : VfsManager} (hpop : v.ensureDirPopulated g d = (.ok (), v₁)) (i : Nat) :
    (v.lookup g d name).1 = .ok i ↔ v₁.liveChild d name = some i := by
  unfold lookup
  rw [if_neg hdot, if_neg hdots, hpop]
  simp only
  cases hlive : v.liveChild d name with
  | none =>
    cases v₁.liveChild d name with
    | none => simp
    | some j => simp
  | some j =>
    -- what is found at once is in a directory that is populated
    obtain ⟨hj, -⟩ := liveChild_eq_some.mp hlive
    obtain ⟨-, ids, hids, -⟩ := hv.child d name j hj
    rw [ensureDirPopulated_listed hids, Prod.mk.injEq] at hpop
    rw [← hpop.2, hlive]
    simp

theorem listsNames_of (hv : v.WellFormed) (h : ∀ d, (v.ensureDirPopulated g d).2.Consistent) :
    v.ListsNames g := by
  intro d nodes v' hlist
  unfold listDir at hlist
  split at hlist
  · simp at hlist
  · rename_i v₁ hpop
    obtain ⟨hv₁, ids, hids⟩ := hv.ensureDirPopulated_ok hpop
    have hc := h d
    simp only [hpop] at hc
    simp only [Prod.mk.injEq, Except.ok.injEq, hids, Option.getD_some] at hlist
    obtain ⟨rfl, rfl⟩ := hlist
    refine ⟨hc.names_nodup hv₁ hids, fun name hdot hdots i => ?_⟩
    rw [lookup_live hv hdot hdots hpop, hc.listed_live hv₁ hids]

/-! ## Over a run -/

structure Agreeing (v : VfsManager) : Prop where
  wellFormed : v.WellFormed
  attached : v.Attached
  namesLive : v.NamesLive

namespace Agreeing

theorem new (rootOid : Str) : (VfsManager.new rootOid).Agreeing :=
  ⟨.new rootOid, .new rootOid, .new rootOid⟩

theorem changes (hg : g.DistinctNames) (h : v.Agreeing) (hv' : v'.WellFormed)
    (hchanges : Changes ⟨False, True, fun _ => True, VfsCall.elsewhere⟩ g v v') : v'.Agreeing where
  wellFormed := hv'
  attached := hchanges.keeps (fun _ _ hv hc ha => ha.change id hg hv hc) h.attached
  namesLive := hchanges.keeps (fun _ _ hv hc hl => hl.change rfl hv hc) h.namesLive

theorem ensureDirPopulated (hg : g.DistinctNames) (h : v.Agreeing) (d : Nat) :
    (v.ensureDirPopulated g d).2.Agreeing :=
  h.changes hg (h.wellFormed.ensureDirPopulated d) (ensureDirPopulated_changes h.wellFormed d)

theorem consistent (h : v.Agreeing) : v.Consistent := h.wellFormed.consistent h.attached h.namesLive

theorem listsNames (hg : g.DistinctNames) (h : v.Agreeing) : v.ListsNames g :=
  listsNames_of h.wellFormed fun d => (h.ensureDirPopulated hg d).consistent

end Agreeing

theorem Agreeing.apply (hg : g.DistinctNames) (h : v.Agreeing) {call : VfsCall} (hok : call.KeepsNames g v) :
    (call.apply g v).Agreeing :=
  h.changes hg (h.wellFormed.apply call)
    (apply_changes h.wellFormed call (.inr trivial) (fun _ _ => trivial) (.inr hok.1) hok.2)

/-- The directory of a name is populated. -/
theorem mapped_listed (hv : v.WellFormed) {d : Nat} {name : Str} {i : Nat}
    (hi : (v.ensureDirPopulated g d).2.childMap (d, name) = some i) :
    ∃ ids, (v.ensureDirPopulated g d).2.dirChildren d = some ids ∧ i ∈ ids :=
  ((hv.ensureDirPopulated d).child d name i hi).2

/-- Two live nodes share a name when a directory is made over one of them. -/
theorem mkdir_over (hv : v.WellFormed) {d : Nat} {name : Str} {i : Nat}
    (hi : (v.ensureDirPopulated g d).2.liveChild d name = some i) : ¬ (v.mkdir g d name).2.Consistent := by
  obtain ⟨hmap, n, hn⟩ := liveChild_eq_some.mp hi
  obtain ⟨hn, hlive⟩ := getNode_eq_some.mp hn
  obtain ⟨ids, hids, hmem⟩ := mapped_listed hv hmap
  have hpop := ensureDirPopulated_of_listed hids
  have hv' := hv.ensureDirPopulated (g := g) d
  obtain ⟨m, hm, -, hname, -⟩ := mapped_node hv' hmap
  rw [hn, Option.some.injEq] at hm
  subst hm
  have hi' := hv'.fresh i n hn
  obtain ⟨p, hp, -⟩ := (hv'.listed d ids hids).2.1
  have hd := hv'.fresh d p hp
  intro hc
  unfold mkdir at hc
  rw [hpop] at hc
  generalize (v.ensureDirPopulated g d).2 = w at hc hn hids hi' hd
  simp only at hc
  obtain ⟨-, -, hmapped⟩ := hc d (ids ++ [w.nextInode]) (by simp [addNode, Nat.ne_of_lt hd, hids])
  have := hmapped i (by simp [hmem]) n (by simp [addNode, Nat.ne_of_lt hi', hn]) hlive
  rw [hname] at this
  simp only [addNode, setDirChildren_childMap, pushChild_childMap, insertNode_childMap, if_true,
    Option.some.injEq] at this
  omega

/-- A node that is renamed onto itself is dead and keeps its name. -/
theorem rename_onto_itself (hv : v.WellFormed) {d : Nat} {name : Str} {i : Nat}
    (hi : (v.ensureDirPopulated g d).2.childMap (d, name) = some i) :
    ¬ (v.rename g d name d name).2.Consistent := by
  obtain ⟨ids, hids, -⟩ := mapped_listed hv hi
  obtain ⟨n, -, hmap, hnodes⟩ := rename_tables (d, name) (d, name) hv
    (by rw [ensureDirPopulated_twice hv]) hi hids
  have hdead := hnodes i
  have hname := hmap (d, name)
  rw [if_pos rfl] at hdead hname
  obtain ⟨-, ids', hids', -⟩ := (hv.rename (g := g) d name d name).child d name i hname
  intro hc
  obtain ⟨⟨m, hm, hlive, -⟩, -⟩ := (hc d ids' hids').2.1 name i hname
  rw [hdead, Option.some.injEq] at hm
  subst hm
  simp [moved] at hlive

theorem Agreeing.broken (h : v.Agreeing) {call : VfsCall} (hnot : ¬ call.KeepsNames g v) :
    ¬ (call.apply g v).Consistent := by
  have hv := h.wellFormed
  cases call with
  | mkdir dirId name =>
    cases hi : (v.ensureDirPopulated g dirId).2.liveChild dirId name with
    | none => exact absurd ⟨hi, trivial⟩ hnot
    | some i => exact mkdir_over hv hi
  | rename fromDirId fromName toDirId toName =>
    simp only [VfsCall.KeepsNames, VfsCall.FreshDir, VfsCall.Moves, VfsCall.elsewhere, true_and,
      not_forall, not_not] at hnot
    obtain ⟨i, ids, hi, -, hsame⟩ := hnot
    simp only [Prod.mk.injEq] at hsame
    obtain ⟨rfl, rfl⟩ := hsame
    rw [ensureDirPopulated_twice hv] at hi
    exact rename_onto_itself hv hi
  | _ => exact absurd ⟨trivial, trivial⟩ hnot

/-- In every state of a run the tables agree and a client finds what it is shown, exactly if no call of the run
makes a directory over a name that is taken or renames a name onto itself. -/
theorem consistent_iff (g : GitEngine) (hg : g.DistinctNames) (rootOid : Str) (calls : List VfsCall) :
    (∀ done rest v, calls = done ++ rest →
      Run.run (VfsCall.step g) (VfsManager.new rootOid) done = some v → v.Consistent ∧ v.ListsNames g) ↔
    Run.Meets (VfsCall.step g) (VfsCall.KeepsNames g) (VfsManager.new rootOid) calls := by
  apply Run.meets_iff (I := Agreeing) (C := fun v => v.Consistent ∧ v.ListsNames g)
  · intro v h
    exact ⟨h.consistent, h.listsNames hg⟩
  · rintro v call v' h hok hstep
    simp only [VfsCall.step, Option.some.injEq] at hstep
    exact hstep ▸ h.apply hg hok
  · intro v call h hnot
    exact ⟨_, rfl, fun hc => h.broken hnot hc.1⟩
  · exact .new rootOid

/-! ### Two runs -/

instance (g : GitEngine) (v : VfsManager) (call : VfsCall) : Decidable (call.KeepsNames g v) :=
  match call with
  | .mkdir dirId name =>
    decidable_of_iff ((v.ensureDirPopulated g dirId).2.liveChild dirId name = none)
      (and_iff_left trivial).symm
  | .rename fromDirId fromName toDirId toName =>
    let v' := ((v.ensureDirPopulated g fromDirId).2.ensureDirPopulated g toDirId).2
    decidable_of_iff
      (v'.childMap (fromDirId, fromName) = none ∨ v'.dirChildren toDirId = none ∨
        (fromDirId, fromName) ≠ (toDirId, toName)) (by
      simp only [VfsCall.KeepsNames, VfsCall.FreshDir, VfsCall.Moves, VfsCall.elsewhere, true_and, v']
      cases v'.childMap (fromDirId, fromName) <;> cases v'.dirChildren toDirId <;> simp [*])
  | .lookup _ _ => .isTrue ⟨trivial, trivial⟩
  | .listDir _ => .isTrue ⟨trivial, trivial⟩
  | .createFile _ _ _ => .isTrue ⟨trivial, trivial⟩
  | .remove _ _ => .isTrue ⟨trivial, trivial⟩
  | .ensureParentDirs _ => .isTrue ⟨trivial, trivial⟩

/-- A base of one tree, with a file and a directory that is not there. -/
def smallBase : GitEngine where
  trees := fun oid =>
    if oid = ['r'] then some ⟨[⟨.regularFile, ['f'], ['b']⟩, ⟨.directory, ['d'], ['t']⟩]⟩ else none
  rootTreeOid := some ['r']
  commitOid := none
  blobs := fun _ => none
  cachedLen := fun _ => none
  blobsDirLen := none
  gcsStorage := false

theorem smallBase_distinctNames : smallBase.DistinctNames := by
  intro oid
  unfold treeEntries GitEngine.getTree smallBase
  by_cases hoid : oid = ['r']
  · simp [hoid]
  · simp [hoid]

def smallCalls : List VfsCall :=
  [.createFile 1 ['f'] .regularFile, .mkdir 1 ['e'], .rename 1 ['f'] 4 ['g'], .remove 1 ['d'],
    .mkdir 1 ['d'], .ensureParentDirs "d/x/y".toList]

theorem smallCalls_check :
    Run.check (VfsCall.step smallBase) (fun v call => decide (call.KeepsNames smallBase v))
      (VfsManager.new ['r']) smallCalls = true := by decide +kernel

theorem consistent_iff_small :
    ∃ v, Run.run (VfsCall.step smallBase) (VfsManager.new ['r']) smallCalls = some v ∧
      v.Consistent ∧ v.ListsNames smallBase := by
  refine ⟨_, rfl, ?_⟩
  exact (consistent_iff smallBase smallBase_distinctNames ['r'] smallCalls).mpr
    (Run.meets_of_check (fun _ _ h => of_decide_eq_true h) smallCalls_check) smallCalls [] _
    (List.append_nil _).symm rfl

theorem mkdir_twice :
    ¬ ∀ (g : GitEngine) (rootOid : Str) (calls : List VfsCall) (v : VfsManager), g.DistinctNames →
      Run.run (VfsCall.step g) (VfsManager.new rootOid) calls = some v → v.Consistent ∧ v.ListsNames g := by
  intro h
  obtain ⟨hc, -⟩ := h smallBase ['r'] [.mkdir 1 ['e'], .mkdir 1 ['e']] _ smallBase_distinctNames rfl
  obtain ⟨-, -, hmapped⟩ := hc 1 [2, 3, 4, 5] (by rfl)
  have := hmapped 4 (by simp) ⟨4, 1, ['e'], [], .directory, true, 4096, false⟩ (by rfl) rfl
  exact absurd this (by decide +kernel)

end VfsManager

end GitNfs
