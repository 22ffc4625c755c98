import GitNfs.Vfs.Calls
import Mathlib.Logic.Relator
import Mathlib.Data.List.Forall2
import Mathlib.Data.Option.Basic

/-! # Tables that differ in their numbers

Two servers that hold the same tree, where the second one may have asked for more of its directories.
A relation says which inode of the one is which of the other.
-/

namespace GitNfs

/-- Two nodes that differ in nothing but the numbers. -/
structure VfsNode.Twin (R : Nat → Nat → Prop) (n m : VfsNode) : Prop where
  id : R n.id m.id
  parent : R n.parentId m.parentId
  rest : { m with id := n.id, parentId := n.parentId } = n

theorem VfsNode.Twin.mono {R R' : Nat → Nat → Prop} {n m : VfsNode} (h : n.Twin R m)
    (hR : ∀ i j, R i j → R' i j) : n.Twin R' m := ⟨hR _ _ h.id, hR _ _ h.parent, h.rest⟩

theorem VfsNode.Twin.oid {R : Nat → Nat → Prop} {n m : VfsNode} (h : n.Twin R m) : m.oid = n.oid := by rw [← h.rest]

theorem VfsNode.Twin.name {R : Nat → Nat → Prop} {n m : VfsNode} (h : n.Twin R m) : m.name = n.name := by
  rw [← h.rest]

theorem VfsNode.Twin.isDir {R : Nat → Nat → Prop} {n m : VfsNode} (h : n.Twin R m) : m.isDir = n.isDir := by
  rw [← h.rest]

theorem VfsNode.Twin.isDeleted {R : Nat → Nat → Prop} {n m : VfsNode} (h : n.Twin R m) :
    m.isDeleted = n.isDeleted := by rw [← h.rest]

/-- Two errors of one kind. -/
inductive Error.Twin : Error → Error → Prop
  | dirNotFound (i j : Nat) : Twin (.dirNotFound i) (.dirNotFound j)
  | notADirectory (i j : Nat) : Twin (.notADirectory i) (.notADirectory j)
  | childNotFound (name : Str) (i j : Nat) : Twin (.childNotFound name i) (.childNotFound name j)
  | nodeNotFound (i j : Nat) : Twin (.nodeNotFound i) (.nodeNotFound j)
  | sourceNotFound (name : Str) : Twin (.sourceNotFound name) (.sourceNotFound name)
  | emptyPath : Twin .emptyPath .emptyPath

theorem rel_mono {α β : Type*} {R R' : α → β → Prop} {a : Option α} {b : Option β} (h : Option.Rel R a b)
    (hR : ∀ x y, R x y → R' x y) : Option.Rel R' a b := by
  cases h with
  | some h => exact .some (hR _ _ h)
  | none => exact .none

namespace VfsManager

/-- Where the last entry of a name stands. -/
def lastIndex : List GitTreeEntry → Str → Option Nat
  | [], _ => none
  | e :: es, name =>
    match lastIndex es name with
    | some i => some (i + 1)
    | none => if e.name = name then some 0 else none

/-- A directory that has the entries of a tree and was not touched since. -/
structure Filled (g : GitEngine) (v : VfsManager) (dirId : Nat) (oid : Str) (ids : List Nat) : Prop where
  nodes : List.Forall₂ (fun e id => v.nodes id = some (entryNode g dirId id e)) (treeEntries g oid) ids
  names : ∀ name, v.childMap (dirId, name) = (lastIndex (treeEntries g oid) name).bind fun i => ids[i]?

/-- A directory that only the second server has asked for. -/
structure Early (g : GitEngine) (R : Nat → Nat → Prop) (w : VfsManager) (dirId : Nat) (ids : List Nat) : Prop where
  hidden : ∀ id ∈ ids, ∀ i, ¬ R i id
  filled : ∃ m, w.nodes dirId = some m ∧ Filled g w dirId m.oid ids

structure Tables (g : GitEngine) (R : Nat → Nat → Prop) (v w : VfsManager) : Prop where
  unique : Relator.BiUnique R
  total : ∀ i n, v.nodes i = some n → ∃ j, R i j
  node : ∀ i j, R i j → ∃ n m, v.nodes i = some n ∧ w.nodes j = some m ∧ n.Twin R m
  opened : ∀ i j ids, R i j → v.dirChildren i = some ids →
    (∃ ids', w.dirChildren j = some ids' ∧ List.Forall₂ R ids ids') ∧
      ∀ name, Option.Rel R (v.childMap (i, name)) (w.childMap (j, name))
  early : ∀ j ids, w.dirChildren j = some ids → (∀ i, R i j → v.dirChildren i = none) → Early g R w j ids

structure Sim (g : GitEngine) (R : Nat → Nat → Prop) (v w : VfsManager) : Prop where
  left : v.WellFormed
  right : w.WellFormed
  tables : Tables g R v w

section

variable {g : GitEngine} {R R' : Nat → Nat → Prop} {v w v' w' : VfsManager}

/-- A server and itself. -/
theorem Sim.refl (hv : v.WellFormed) : Sim g (fun i j => i = j ∧ ∃ n, v.nodes i = some n) v v := by
  have hlisted (j : Nat) (ids : List Nat) (h : v.dirChildren j = some ids) : ∃ n, v.nodes j = some n := by
    obtain ⟨-, ⟨n, hn, -⟩, -⟩ := hv.listed j ids h
    exact ⟨n, hn⟩
  refine ⟨hv, hv, ⟨?_, ?_⟩, ?_, ?_, ?_, ?_⟩
  · rintro i i' j ⟨rfl, -⟩ ⟨rfl, -⟩
    rfl
  · rintro i j j' ⟨rfl, -⟩ ⟨rfl, -⟩
    rfl
  · exact fun i n hn => ⟨i, rfl, n, hn⟩
  · rintro i _ ⟨rfl, n, hn⟩
    refine ⟨n, n, hn, hn, ⟨rfl, n, ?_⟩, ⟨rfl, ?_⟩, rfl⟩
    · rw [hv.id_eq i n hn, hn]
    · obtain ⟨p, hp, -⟩ := hv.parent i n hn
      exact ⟨p, hp⟩
  · rintro i _ ids ⟨rfl, -⟩ hids
    refine ⟨⟨ids, hids, ?_⟩, ?_⟩
    · obtain ⟨-, -, hmem⟩ := hv.listed i ids hids
      refine List.forall₂_same.mpr fun x hx => ⟨rfl, ?_⟩
      obtain ⟨n, -, hn, -⟩ := hmem x hx
      exact ⟨n, hn⟩
    · intro name
      cases hname : v.childMap (i, name) with
      | none => exact .none
      | some x =>
        obtain ⟨n, hn, -⟩ := mapped_node hv hname
        exact .some ⟨rfl, n, hn⟩
  · intro j ids hids hnone
    obtain ⟨n, hn⟩ := hlisted j ids hids
    have := hnone j ⟨rfl, n, hn⟩
    rw [hids] at this
    cases this

/-! ## Populating on one side -/

theorem lastIndex_lt {es : List GitTreeEntry} {name : Str} {i : Nat} (h : lastIndex es name = some i) :
    i < es.length := by
  induction es generalizing i with
  | nil => cases h
  | cons e es ih =>
    rw [lastIndex] at h
    split at h
    · rename_i k hk
      have := ih hk
      cases h
      simpa using this
    · split_ifs at h
      cases h
      exact Nat.succ_pos _

theorem foldl_insertNode_lastIndex (d : Nat) (es : List GitTreeEntry) (next : Nat) (v : VfsManager) (name : Str) :
    ((entryNodes g d es next).foldl insertNode v).childMap (d, name) =
      match lastIndex es name with
      | some i => some (next + i)
      | none => v.childMap (d, name) := by
  induction es generalizing next v with
  | nil => rfl
  | cons e es ih =>
    rw [entryNodes, List.foldl_cons, ih, lastIndex]
    cases lastIndex es name with
    | some i =>
      simp only [Option.some.injEq]
      omega
    | none =>
      simp only [insertNode_childMap, Prod.mk.injEq]
      by_cases hname : e.name = name
      · rw [if_pos hname]
        exact if_pos ⟨rfl, hname.symm⟩
      · rw [if_neg hname]
        exact if_neg fun h => hname h.2.symm

theorem populate_filled (hv : v.WellFormed) {d : Nat} (hd : v.dirChildren d = none) (oid : Str) :
    Filled g (v.populate g d oid) d oid (List.range' v.nextInode (treeEntries g oid).length) := by
  constructor
  · rw [List.forall₂_iff_get]
    refine ⟨by simp, fun i hi hi' => ?_⟩
    simp only [List.get_eq_getElem, List.getElem_range', Nat.one_mul]
    exact populate_nodes_new hv hd (List.getElem?_eq_getElem hi)
  · intro name
    rw [populate_eq (hv.unmapped hd)]
    refine (foldl_insertNode_lastIndex (g := g) d _ _ _ name).trans ?_
    cases hi : lastIndex (treeEntries g oid) name with
    | none => exact hv.unmapped hd name
    | some i =>
      have := lastIndex_lt hi
      simp only [Option.bind_some]
      rw [List.getElem?_range' (by simpa using this), Nat.one_mul]

theorem Filled.congr {d : Nat} {oid : Str} {ids : List Nat} (h : Filled g w d oid ids)
    (hnodes : ∀ id ∈ ids, w'.nodes id = w.nodes id) (hnames : ∀ name, w'.childMap (d, name) = w.childMap (d, name)) :
    Filled g w' d oid ids := by
  refine ⟨?_, fun name => (hnames name).trans (h.names name)⟩
  obtain ⟨hlen, hget⟩ := List.forall₂_iff_get.mp h.nodes
  exact List.forall₂_iff_get.mpr ⟨hlen, fun i hi hi' => (hnodes _ (List.get_mem _ _)).trans (hget i hi hi')⟩

/-- What leaves a directory of the second server alone. -/
theorem Early.congr {d : Nat} {ids : List Nat} (h : Early g R w d ids) (hR : ∀ id ∈ ids, ∀ i, ¬ R' i id)
    (hdir : ∀ m, w.nodes d = some m → ∃ m', w'.nodes d = some m' ∧ m'.oid = m.oid)
    (hnodes : ∀ id ∈ ids, w'.nodes id = w.nodes id) (hnames : ∀ name, w'.childMap (d, name) = w.childMap (d, name)) :
    Early g R' w' d ids := by
  obtain ⟨m, hm, hfilled⟩ := h.filled
  obtain ⟨m', hm', hoid⟩ := hdir m hm
  exact ⟨hR, m', hm', hoid ▸ hfilled.congr hnodes hnames⟩

theorem populate_childMap_ne (hv : v.WellFormed) {d : Nat} (hd : v.dirChildren d = none) (oid : Str) {d' : Nat}
    (hne : d' ≠ d) (name : Str) : (v.populate g d oid).childMap (d', name) = v.childMap (d', name) := by
  rcases populate_childMap (hv.unmapped hd) g oid (d', name) with ⟨h, -⟩ | ⟨h, -⟩
  · exact h
  · exact absurd h hne

/-- The second server asks for one more directory. -/
theorem Sim.populate_right (h : Sim g R v w) {e : Nat} {dir : VfsNode} (he : w.dirChildren e = none)
    (hdir : w.nodes e = some dir) (hisDir : dir.isDir = true) : Sim g R v (w.populate g e dir.oid) := by
  obtain ⟨hv, hw, ht⟩ := h
  have hold {j : Nat} {m : VfsNode} (hm : w.nodes j = some m) : (w.populate g e dir.oid).nodes j = some m :=
    populate_nodes_old hw he hm
  have hlist {j : Nat} (hne : j ≠ e) : (w.populate g e dir.oid).dirChildren j = w.dirChildren j := by
    rw [populate_dirChildren (hw.unmapped he), if_neg hne]
  refine ⟨hv, hw.populate he hdir hisDir _, ht.unique, ht.total, ?_, ?_, ?_⟩
  · intro i j hij
    obtain ⟨n, m, hn, hm, htwin⟩ := ht.node i j hij
    exact ⟨n, m, hn, hold hm, htwin⟩
  · intro i j ids hij hids
    obtain ⟨⟨ids', hids', hall⟩, hnames⟩ := ht.opened i j ids hij hids
    have hne : j ≠ e := by
      rintro rfl
      rw [he] at hids'
      cases hids'
    refine ⟨⟨ids', by rw [hlist hne, hids'], hall⟩, fun name => ?_⟩
    rw [populate_childMap_ne hw he _ hne]
    exact hnames name
  · intro j ids hids hnone
    by_cases hj : j = e
    · subst hj
      rw [populate_dirChildren (hw.unmapped he), if_pos rfl, Option.some.injEq] at hids
      subst hids
      refine ⟨fun x hx i hix => ?_, dir, hold hdir, populate_filled hw he _⟩
      obtain ⟨-, m, -, hm, -⟩ := ht.node i x hix
      have hlt := hw.fresh x m hm
      have hge := (List.mem_range'_1.mp hx).1
      omega
    · rw [hlist hj] at hids
      have hearly := ht.early j ids hids hnone
      refine hearly.congr hearly.hidden (fun m hm => ⟨m, hold hm, rfl⟩) (fun x hx => ?_) fun name => ?_
      · obtain ⟨-, -, hmem⟩ := hw.listed j ids hids
        obtain ⟨m, -, hm, -⟩ := hmem x hx
        rw [hold hm, hm]
      · exact populate_childMap_ne hw he _ hj name

theorem Sim.ensure_right (h : Sim g R v w) (e : Nat) : Sim g R v (w.ensureDirPopulated g e).2 := by
  obtain ⟨ids, -, heq⟩ | ⟨dir, he, hdir, hisDir, heq⟩ | ⟨err, heq⟩ := ensureDirPopulated_cases g w e
  · rw [heq]
    exact h
  · rw [heq]
    exact h.populate_right he hdir hisDir
  · rw [heq]
    exact h

/-- The first server asks for a directory that the second one has asked for before. -/
theorem Sim.populate_left (h : Sim g R v w) {d e : Nat} {dir : VfsNode} {ids : List Nat} (hde : R d e)
    (hd : v.dirChildren d = none) (hdir : v.nodes d = some dir) (hisDir : dir.isDir = true)
    (he : w.dirChildren e = some ids) :
    ∃ R', (∀ i j, R i j → R' i j) ∧ Sim g R' (v.populate g d dir.oid) w := by
  obtain ⟨hv, hw, ht⟩ := h
  have hearly : Early g R w e ids := by
    refine ht.early e ids he fun i hi => ?_
    rw [ht.unique.1 hi hde, hd]
  obtain ⟨dir', m, hdir', hm, htwin⟩ := ht.node d e hde
  rw [hdir, Option.some.injEq] at hdir'
  subst hdir'
  obtain ⟨m', hm', hfilled⟩ := hearly.filled
  rw [hm, Option.some.injEq] at hm'
  subst hm'
  rw [htwin.oid] at hfilled
  obtain ⟨hlen, hget⟩ := List.forall₂_iff_get.mp hfilled.nodes
  have hnodup : ids.Nodup := (hw.listed e ids he).1
  -- the entries get the numbers that come next, the second server has numbered them before
  let New (i j : Nat) : Prop := ∃ k, i = v.nextInode + k ∧ ids[k]? = some j
  have hnew_left {i j : Nat} (hnew : New i j) : v.nodes i = none := by
    obtain ⟨k, rfl, -⟩ := hnew
    exact hv.not_node (Nat.le_add_right _ _)
  have hnew_right {i j : Nat} (hnew : New i j) : j ∈ ids := by
    obtain ⟨k, -, hk⟩ := hnew
    exact List.mem_of_getElem? hk
  have hR_left {i j : Nat} (hij : R i j) : v.nodes i ≠ none := by
    obtain ⟨n, -, hn, -⟩ := ht.node i j hij
    rw [hn]
    exact Option.some_ne_none n
  have hold {i : Nat} {n : VfsNode} (hn : v.nodes i = some n) : (v.populate g d dir.oid).nodes i = some n :=
    populate_nodes_old hv hd hn
  have hlist {i : Nat} (hne : i ≠ d) : (v.populate g d dir.oid).dirChildren i = v.dirChildren i := by
    rw [populate_dirChildren (hv.unmapped hd), if_neg hne]
  refine ⟨fun i j => R i j ∨ New i j, fun i j hij => .inl hij, hv.populate hd hdir hisDir _, hw, ⟨?_, ?_⟩, ?_, ?_, ?_,
    ?_⟩
  · intro i i' j hij hij'
    rcases hij with hij | hij <;> rcases hij' with hij' | hij'
    · exact ht.unique.1 hij hij'
    · exact absurd hij (hearly.hidden j (hnew_right hij') i)
    · exact absurd hij' (hearly.hidden j (hnew_right hij) i')
    · obtain ⟨k, rfl, hk⟩ := hij
      obtain ⟨k', rfl, hk'⟩ := hij'
      have hlt := (List.getElem?_eq_some_iff.mp hk).1
      rw [(List.getElem?_inj hlt hnodup).mp (hk.trans hk'.symm)]
  · intro i j j' hij hij'
    rcases hij with hij | hij <;> rcases hij' with hij' | hij'
    · exact ht.unique.2 hij hij'
    · exact absurd (hnew_left hij') (hR_left hij)
    · exact absurd (hnew_left hij) (hR_left hij')
    · obtain ⟨k, rfl, hk⟩ := hij
      obtain ⟨k', hkk, hk'⟩ := hij'
      obtain rfl : k = k' := by omega
      rw [hk, Option.some.injEq] at hk'
      exact hk'
  · intro i n hn
    rcases populate_nodes_cases hv hd hn with hn | ⟨k, entry, hk, rfl, -⟩
    · obtain ⟨j, hij⟩ := ht.total i n hn
      exact ⟨j, .inl hij⟩
    · have hlt : k < ids.length := hlen ▸ (List.getElem?_eq_some_iff.mp hk).1
      exact ⟨ids[k], .inr ⟨k, rfl, List.getElem?_eq_getElem hlt⟩⟩
  · rintro i j (hij | ⟨k, rfl, hk⟩)
    · obtain ⟨n, m, hn, hm, htwin⟩ := ht.node i j hij
      exact ⟨n, m, hold hn, hm, htwin.mono fun _ _ h => .inl h⟩
    · obtain ⟨hlt, rfl⟩ := List.getElem?_eq_some_iff.mp hk
      have hlt' : k < (treeEntries g dir.oid).length := hlen ▸ hlt
      have hentry : (treeEntries g dir.oid)[k]? = some (treeEntries g dir.oid)[k] := List.getElem?_eq_getElem hlt'
      exact ⟨_, _, populate_nodes_new hv hd hentry, hget k hlt' hlt, .inr ⟨k, rfl, hk⟩, .inl hde, rfl⟩
  · rintro i j is (hij | ⟨k, rfl, hk⟩) his
    · by_cases hi : i = d
      · subst hi
        obtain rfl : j = e := ht.unique.2 hij hde
        rw [populate_dirChildren (hv.unmapped hd), if_pos rfl, Option.some.injEq] at his
        subst his
        refine ⟨⟨ids, he, List.forall₂_iff_get.mpr ⟨by simpa using hlen, fun k hk hk' => ?_⟩⟩, fun name => ?_⟩
        · refine .inr ⟨k, ?_, List.getElem?_eq_getElem hk'⟩
          simp only [List.get_eq_getElem, List.getElem_range', Nat.one_mul]
        · rw [(populate_filled hv hd dir.oid).names name, hfilled.names name]
          cases hname : lastIndex (treeEntries g dir.oid) name with
          | none => exact .none
          | some k =>
            have hlt := lastIndex_lt hname
            have hlt' : k < ids.length := hlen ▸ hlt
            rw [Option.bind_some, Option.bind_some, List.getElem?_range' hlt, List.getElem?_eq_getElem hlt']
            refine .some (.inr ⟨k, ?_, List.getElem?_eq_getElem hlt'⟩)
            rw [Nat.one_mul]
      · rw [hlist hi] at his
        obtain ⟨⟨js, hjs, hall⟩, hnames⟩ := ht.opened i j is hij his
        refine ⟨⟨js, hjs, hall.imp fun _ _ h => .inl h⟩, fun name => ?_⟩
        rw [populate_childMap_ne hv hd _ hi]
        exact rel_mono (hnames name) fun _ _ h => .inl h
    · -- nothing is below an inode that is new
      rw [hlist] at his
      · rw [hv.unlisted (Nat.le_add_right _ _)] at his
        cases his
      · rintro rfl
        rw [hv.not_node (Nat.le_add_right _ _)] at hdir
        cases hdir
  · intro j js hjs hnone
    have hj : Early g R w j js := by
      refine ht.early j js hjs fun i hij => ?_
      have := hnone i (.inl hij)
      rw [populate_dirChildren (hv.unmapped hd)] at this
      split_ifs at this
      exact this
    refine hj.congr (fun x hx i => ?_) (fun m hm => ⟨m, hm, rfl⟩) (fun _ _ => rfl) fun _ => rfl
    rintro (hix | hix)
    · exact hj.hidden x hx i hix
    · -- a node has one parent
      obtain ⟨-, -, hmem⟩ := hw.listed j js hjs
      obtain ⟨n, -, hn, hparent⟩ := hmem x hx
      obtain ⟨-, -, hmem'⟩ := hw.listed e ids he
      obtain ⟨n', -, hn', hparent'⟩ := hmem' x (hnew_right hix)
      rw [hn, Option.some.injEq] at hn'
      subst hn'
      obtain rfl : j = e := hparent.symm.trans hparent'
      have := hnone d (.inl hde)
      rw [populate_dirChildren (hv.unmapped hd), if_pos rfl] at this
      cases this

/-! ## Populating on both sides -/

/-- Numbers that name the same inode, or none. -/
def Arg (R : Nat → Nat → Prop) (v w : VfsManager) (i j : Nat) : Prop :=
  R i j ∨ v.nodes i = none ∧ w.nodes j = none

/-- A directory that both servers have asked for. -/
structure Open (R : Nat → Nat → Prop) (v w : VfsManager) (d e : Nat) : Prop where
  same : R d e
  left : ∃ ids, v.dirChildren d = some ids
  right : ∃ ids, w.dirChildren e = some ids

theorem Sim.ensure (h : Sim g R v w) {d e : Nat} (hde : Arg R v w d e) :
    (∃ R' v' w', (∀ i j, R i j → R' i j) ∧ Sim g R' v' w' ∧ Open R' v' w' d e ∧
      v.ensureDirPopulated g d = (.ok (), v') ∧ w.ensureDirPopulated g e = (.ok (), w')) ∨
    ∃ err err', err.Twin err' ∧ v.ensureDirPopulated g d = (.error err, v) ∧
      w.ensureDirPopulated g e = (.error err', w) := by
  rcases hde with hde | ⟨hdn, hen⟩
  · obtain ⟨n, m, hn, hm, htwin⟩ := h.tables.node d e hde
    cases hd : v.dirChildren d with
    | some ids =>
      obtain ⟨⟨ids', he, -⟩, -⟩ := h.tables.opened d e ids hde hd
      exact .inl ⟨R, v, w, fun _ _ h => h, h, ⟨hde, ⟨ids, hd⟩, ids', he⟩, ensureDirPopulated_listed hd,
        ensureDirPopulated_listed he⟩
    | none =>
      cases hisDir : n.isDir with
      | false =>
        have hmdir : m.isDir = false := htwin.isDir.trans hisDir
        have he : w.dirChildren e = none := by
          by_contra hne
          obtain ⟨ids, he⟩ := Option.ne_none_iff_exists'.mp hne
          obtain ⟨-, ⟨m', hm', hdir'⟩, -⟩ := h.right.listed e ids he
          rw [hm, Option.some.injEq] at hm'
          rw [← hm', hmdir] at hdir'
          cases hdir'
        refine .inr ⟨_, _, .notADirectory d e, ?_, ?_⟩
        · simp only [ensureDirPopulated, hd, hn, hisDir, Bool.false_eq_true, if_false]
        · simp only [ensureDirPopulated, he, hm, hmdir, Bool.false_eq_true, if_false]
      | true =>
        have hmdir : m.isDir = true := htwin.isDir.trans hisDir
        have hleft : v.ensureDirPopulated g d = (.ok (), v.populate g d n.oid) := by
          simp only [ensureDirPopulated, hd, hn, hisDir, if_true]
        have hlist : (v.populate g d n.oid).dirChildren d =
            some (List.range' v.nextInode (treeEntries g n.oid).length) := by
          rw [populate_dirChildren (h.left.unmapped hd), if_pos rfl]
        cases he : w.dirChildren e with
        | some ids =>
          obtain ⟨R', hR, hsim⟩ := h.populate_left hde hd hn hisDir he
          exact .inl ⟨R', _, w, hR, hsim, ⟨hR _ _ hde, ⟨_, hlist⟩, ids, he⟩, hleft, ensureDirPopulated_listed he⟩
        | none =>
          have hright : w.ensureDirPopulated g e = (.ok (), w.populate g e m.oid) := by
            simp only [ensureDirPopulated, he, hm, hmdir, if_true]
          have he' : (w.populate g e m.oid).dirChildren e =
              some (List.range' w.nextInode (treeEntries g m.oid).length) := by
            rw [populate_dirChildren (h.right.unmapped he), if_pos rfl]
          obtain ⟨R', hR, hsim⟩ := (h.populate_right he hm hmdir).populate_left hde hd hn hisDir he'
          exact .inl ⟨R', _, _, hR, hsim, ⟨hR _ _ hde, ⟨_, hlist⟩, _, he'⟩, hleft, hright⟩
  · have hd : v.dirChildren d = none := by
      by_contra hne
      obtain ⟨ids, hd⟩ := Option.ne_none_iff_exists'.mp hne
      obtain ⟨-, ⟨n, hn, -⟩, -⟩ := h.left.listed d ids hd
      rw [hdn] at hn
      cases hn
    have he : w.dirChildren e = none := by
      by_contra hne
      obtain ⟨ids, he⟩ := Option.ne_none_iff_exists'.mp hne
      obtain ⟨-, ⟨n, hn, -⟩, -⟩ := h.right.listed e ids he
      rw [hen] at hn
      cases hn
    refine .inr ⟨_, _, .dirNotFound d e, ?_, ?_⟩
    · simp only [ensureDirPopulated, hd, hdn]
    · simp only [ensureDirPopulated, he, hen]

/-! ## Changing on both sides -/

namespace Tables

variable {i j d e : Nat}

theorem modify (h : Tables g R v w) (hij : R i j) {f f' : VfsNode → VfsNode}
    (hf : ∀ n m, v.nodes i = some n → w.nodes j = some m → n.Twin R m → (f n).Twin R (f' m) ∧ (f' m).oid = m.oid) :
    Tables g R (v.modifyNode i f) (w.modifyNode j f') := by
  obtain ⟨n₀, m₀, hn₀, hm₀, htwin₀⟩ := h.node i j hij
  obtain ⟨htwin', hoid⟩ := hf n₀ m₀ hn₀ hm₀ htwin₀
  refine ⟨h.unique, ?_, ?_, h.opened, ?_⟩
  · intro i' n hn
    rw [modifyNode_nodes] at hn
    split_ifs at hn with hi
    · exact ⟨j, hi ▸ hij⟩
    · exact h.total i' n hn
  · intro i' j' hij'
    rw [modifyNode_nodes, modifyNode_nodes]
    by_cases hi : i' = i
    · subst hi
      obtain rfl : j' = j := h.unique.2 hij' hij
      exact ⟨f n₀, f' m₀, by rw [if_pos rfl, hn₀]; rfl, by rw [if_pos rfl, hm₀]; rfl, htwin'⟩
    · have hj : j' ≠ j := fun hj => hi (h.unique.1 (hj ▸ hij') hij)
      rw [if_neg hi, if_neg hj]
      exact h.node i' j' hij'
  · intro j' ids hids hnone
    have hearly := h.early j' ids hids hnone
    refine hearly.congr hearly.hidden (fun m hm => ?_) (fun x hx => ?_) fun _ => rfl
    · rw [modifyNode_nodes]
      by_cases hj : j' = j
      · subst hj
        rw [hm₀, Option.some.injEq] at hm
        subst hm
        exact ⟨f' m₀, by rw [if_pos rfl, hm₀]; rfl, hoid⟩
      · exact ⟨m, by rw [if_neg hj, hm], rfl⟩
    · rw [modifyNode_nodes, if_neg]
      rintro rfl
      exact hearly.hidden _ hx i hij

/-- A list of children that both servers have, or get. -/
theorem setList (h : Tables g R v w) (hde : R d e) {ids ids' : List Nat} (hids : List.Forall₂ R ids ids')
    (hnames : ∀ name, Option.Rel R (v.childMap (d, name)) (w.childMap (e, name))) :
    Tables g R (v.setDirChildren d ids) (w.setDirChildren e ids') := by
  refine ⟨h.unique, h.total, h.node, ?_, ?_⟩
  · intro i j is hij his
    rw [setDirChildren_dirChildren] at his
    by_cases hi : i = d
    · subst hi
      obtain rfl : j = e := h.unique.2 hij hde
      rw [if_pos rfl, Option.some.injEq] at his
      subst his
      exact ⟨⟨ids', by rw [setDirChildren_dirChildren, if_pos rfl], hids⟩, hnames⟩
    · have hj : j ≠ e := fun hj => hi (h.unique.1 (hj ▸ hij) hde)
      rw [if_neg hi] at his
      rw [setDirChildren_dirChildren, if_neg hj]
      exact h.opened i j is hij his
  · intro j js hjs hnone
    by_cases hj : j = e
    · subst hj
      have := hnone d hde
      rw [setDirChildren_dirChildren, if_pos rfl] at this
      cases this
    · rw [setDirChildren_dirChildren, if_neg hj] at hjs
      have hearly : Early g R w j js := by
        refine h.early j js hjs fun i hij => ?_
        have := hnone i hij
        rw [setDirChildren_dirChildren] at this
        split_ifs at this
        exact this
      exact hearly.congr hearly.hidden (fun m hm => ⟨m, hm, rfl⟩) (fun _ _ => rfl) fun _ => rfl

theorem setChild (h : Tables g R v w) (hopen : Open R v w d e) (name : Str) {r r' : Option Nat}
    (hr : Option.Rel R r r') : Tables g R (v.setChild d name r) (w.setChild e name r') := by
  refine ⟨h.unique, h.total, h.node, ?_, ?_⟩
  · intro i j is hij his
    obtain ⟨hlist, hnames⟩ := h.opened i j is hij his
    refine ⟨hlist, fun name' => ?_⟩
    have hiff : i = d ↔ j = e :=
      ⟨fun hi => h.unique.2 hij (hi ▸ hopen.same), fun hj => h.unique.1 hij (hj ▸ hopen.same)⟩
    rw [setChild_childMap, setChild_childMap]
    simp only [Prod.mk.injEq, hiff]
    split_ifs
    · exact hr
    · exact hnames name'
  · intro j js hjs hnone
    have hearly := h.early j js hjs hnone
    refine hearly.congr hearly.hidden (fun m hm => ⟨m, hm, rfl⟩) (fun _ _ => rfl) fun name' => ?_
    rw [setChild_childMap, if_neg]
    intro hj
    obtain ⟨ids, hids⟩ := hopen.left
    have hnil : v.dirChildren d = none := hnone d ((Prod.mk.inj hj).1 ▸ hopen.same)
    rw [hnil] at hids
    cases hids

theorem forall₂_filter (hR : Relator.BiUnique R) (hij : R i j) {ids ids' : List Nat}
    (h : List.Forall₂ R ids ids') :
    List.Forall₂ R (ids.filter fun x => x ≠ i) (ids'.filter fun x => x ≠ j) := by
  induction h with
  | nil => exact .nil
  | @cons x y xs ys hxy _ ih =>
    have hiff : x = i ↔ y = j := ⟨fun hx => hR.2 (hx ▸ hxy) hij, fun hy => hR.1 (hy ▸ hxy) hij⟩
    by_cases hx : x = i
    · rw [List.filter_cons_of_neg (by simp [hx]), List.filter_cons_of_neg (by simp [hiff.mp hx])]
      exact ih
    · have hy : y ≠ j := fun hy => hx (hiff.mpr hy)
      rw [List.filter_cons_of_pos (by simp [hx]), List.filter_cons_of_pos (by simp [hy])]
      exact .cons hxy ih

theorem dropChild (h : Tables g R v w) (hopen : Open R v w d e) (hij : R i j) :
    Tables g R (v.dropChild d i) (w.dropChild e j) := by
  obtain ⟨ids, hids⟩ := hopen.left
  obtain ⟨⟨ids', hids', hall⟩, hnames⟩ := h.opened d e ids hopen.same hids
  have hset := h.setList hopen.same (forall₂_filter h.unique hij hall) hnames
  unfold VfsManager.dropChild
  rw [hids, hids']
  exact hset

theorem pushChild (h : Tables g R v w) (hopen : Open R v w d e) (hij : R i j) :
    Tables g R (v.pushChild d i) (w.pushChild e j) := by
  obtain ⟨ids, hids⟩ := hopen.left
  obtain ⟨⟨ids', hids', hall⟩, hnames⟩ := h.opened d e ids hopen.same hids
  have hset := h.setList hopen.same (List.rel_append hall (.cons hij .nil)) hnames
  unfold VfsManager.pushChild
  rw [hids, hids']
  exact hset

end Tables

theorem Open.dropChild {d e d' e' i j : Nat} (h : Open R v w d e) :
    Open R (v.dropChild d' i) (w.dropChild e' j) d e := by
  obtain ⟨hsame, ⟨ids, hids⟩, ids', hids'⟩ := h
  refine ⟨hsame, ?_, ?_⟩
  · rw [dropChild_dirChildren]
    split_ifs with hd
    · subst hd
      exact ⟨_, by rw [hids]; rfl⟩
    · exact ⟨ids, hids⟩
  · rw [dropChild_dirChildren]
    split_ifs with he
    · subst he
      exact ⟨_, by rw [hids']; rfl⟩
    · exact ⟨ids', hids'⟩

/-- A number that neither server has given yet. -/
theorem Sim.grow (h : Sim g R v w) :
    ∃ R', (∀ i j, R i j → R' i j) ∧ R' v.nextInode w.nextInode ∧
      ∀ n m, n.id = v.nextInode → n.Twin R' m →
        Tables g R' { v with nodes := Function.update v.nodes n.id (some n), nextInode := v.nextInode + 1 }
          { w with nodes := Function.update w.nodes m.id (some m), nextInode := w.nextInode + 1 } := by
  obtain ⟨hv, hw, ht⟩ := h
  have hleft {j : Nat} : ¬ R v.nextInode j := by
    intro hij
    obtain ⟨n, -, hn, -⟩ := ht.node _ _ hij
    rw [hv.not_node le_rfl] at hn
    cases hn
  have hright {i : Nat} : ¬ R i w.nextInode := by
    intro hij
    obtain ⟨-, m, -, hm, -⟩ := ht.node _ _ hij
    rw [hw.not_node le_rfl] at hm
    cases hm
  have hunique : Relator.BiUnique fun i j => R i j ∨ i = v.nextInode ∧ j = w.nextInode := by
    constructor
    · rintro i i' j (hij | ⟨rfl, rfl⟩) (hij' | ⟨rfl, hj⟩)
      · exact ht.unique.1 hij hij'
      · exact absurd (hj ▸ hij) hright
      · exact absurd hij' hright
      · rfl
    · rintro i j j' (hij | ⟨rfl, rfl⟩) (hij' | ⟨hi, rfl⟩)
      · exact ht.unique.2 hij hij'
      · exact absurd (hi ▸ hij) hleft
      · exact absurd hij' hleft
      · rfl
  refine ⟨fun i j => R i j ∨ i = v.nextInode ∧ j = w.nextInode, fun i j hij => .inl hij, .inr ⟨rfl, rfl⟩, ?_⟩
  intro n m hid htwin
  have hmid : m.id = w.nextInode := hunique.2 htwin.id (.inr ⟨hid, rfl⟩)
  refine ⟨hunique, ?_, ?_, ?_, ?_⟩
  · intro i n' hn'
    simp only [Function.update_apply, hid] at hn'
    split_ifs at hn' with hi
    · exact ⟨w.nextInode, .inr ⟨hi, rfl⟩⟩
    · obtain ⟨j, hij⟩ := ht.total i n' hn'
      exact ⟨j, .inl hij⟩
  · rintro i j (hij | ⟨rfl, rfl⟩)
    · have hi : i ≠ v.nextInode := by
        rintro rfl
        exact hleft hij
      have hj : j ≠ w.nextInode := by
        rintro rfl
        exact hright hij
      obtain ⟨n', m', hn', hm', htwin'⟩ := ht.node i j hij
      refine ⟨n', m', ?_, ?_, htwin'.mono fun _ _ h => .inl h⟩
      · simp only [Function.update_apply, hid, if_neg hi, hn']
      · simp only [Function.update_apply, hmid, if_neg hj, hm']
    · refine ⟨n, m, ?_, ?_, htwin⟩
      · simp only [Function.update_apply, hid, if_true]
      · simp only [Function.update_apply, hmid, if_true]
  · rintro i j ids (hij | ⟨rfl, rfl⟩) hids
    · obtain ⟨⟨ids', hids', hall⟩, hnames⟩ := ht.opened i j ids hij hids
      exact ⟨⟨ids', hids', hall.imp fun _ _ h => .inl h⟩, fun name => rel_mono (hnames name) fun _ _ h => .inl h⟩
    · rw [hv.unlisted le_rfl] at hids
      cases hids
  · intro j ids hids hnone
    have hearly := ht.early j ids hids fun i hij => hnone i (.inl hij)
    obtain ⟨-, ⟨p, hp, -⟩, hmem⟩ := hw.listed j ids hids
    have hne (x : Nat) (p : VfsNode) (hx : w.nodes x = some p) : x ≠ w.nextInode := by
      rintro rfl
      rw [hw.not_node le_rfl] at hx
      cases hx
    refine hearly.congr (fun x hx i => ?_) (fun p' hp' => ⟨p', ?_, rfl⟩) (fun x hx => ?_) fun _ => rfl
    · rintro (hix | ⟨-, rfl⟩)
      · exact hearly.hidden x hx i hix
      · obtain ⟨q, -, hq, -⟩ := hmem _ hx
        exact hne _ q hq rfl
    · simp only [Function.update_apply, hmid, if_neg (hne j p hp), hp']
    · obtain ⟨q, -, hq, -⟩ := hmem x hx
      simp only [Function.update_apply, hmid, if_neg (hne x q hq)]

end

end VfsManager

end GitNfs
