import GitNfs.Lib.Walk
import GitNfs.Vfs.Consistent

/-! # The tree that is seen

What a path leads to, whether an inode was made for it yet or not: below a directory whose children nobody
asked for, the names are those of its tree. Asking for them changes nothing that can be seen.
-/

namespace GitNfs

/-- A place of the tree: an inode, or an entry of a tree that has no inode yet. -/
inductive Place where
  | node (id : Nat)
  | entry (e : GitTreeEntry)
  deriving DecidableEq, Repr

/-- The names that do not lead to a child. -/
def isDots (name : Str) : Bool := name == ['.'] || name == ['.', '.']

theorem isDots_eq_false {name : Str} : isDots name = false ↔ name ≠ ['.'] ∧ name ≠ ['.', '.'] := by
  simp [isDots]

namespace VfsManager

/-- Of several entries with one name it is the last that gets the name. -/
def lastEntry (es : List GitTreeEntry) (name : Str) : Option GitTreeEntry :=
  es.reverse.find? fun e => e.name == name

def entryAt (g : GitEngine) (isDir : Bool) (oid name : Str) : Option Place :=
  if isDir then (lastEntry (treeEntries g oid) name).map .entry else none

/-- Where a name leads. -/
def childAt (g : GitEngine) (v : VfsManager) (place : Place) (name : Str) : Option Place :=
  if isDots name then none
  else
    match place with
    | .entry e => entryAt g e.mode.isDir e.oid name
    | .node d =>
      match v.dirChildren d with
      | some _ => (v.liveChild d name).map .node
      | none => (v.nodes d).bind fun n => entryAt g n.isDir n.oid name

/-- Where a path leads from a place. -/
def placeFrom (g : GitEngine) (v : VfsManager) (place : Place) (path : List Str) : Option Place :=
  Walk.walk (childAt g v) place path

def placeAt (g : GitEngine) (v : VfsManager) (path : List Str) : Option Place :=
  placeFrom g v (.node rootInode) path

variable {g : GitEngine} {v v' : VfsManager}

theorem childAt_dots {place : Place} {name : Str} (h : isDots name = true) : childAt g v place name = none := by
  unfold childAt
  rw [if_pos h]

theorem childAt_entry {e : GitTreeEntry} {name : Str} (h : isDots name = false) :
    childAt g v (.entry e) name = entryAt g e.mode.isDir e.oid name := by
  unfold childAt
  rw [if_neg (by simp [h])]

theorem childAt_listed {d : Nat} {ids : List Nat} {name : Str} (h : isDots name = false)
    (hids : v.dirChildren d = some ids) : childAt g v (.node d) name = (v.liveChild d name).map .node := by
  unfold childAt
  simp only [h, Bool.false_eq_true, if_false, hids]

theorem childAt_unlisted {d : Nat} {n : VfsNode} {name : Str} (h : isDots name = false)
    (hids : v.dirChildren d = none) (hn : v.nodes d = some n) :
    childAt g v (.node d) name = entryAt g n.isDir n.oid name := by
  unfold childAt
  simp only [h, Bool.false_eq_true, if_false, hids, hn, Option.bind_some]

theorem entryAt_eq_some {isDir : Bool} {oid name : Str} {a : Place} (h : entryAt g isDir oid name = some a) :
    ∃ e, a = .entry e ∧ lastEntry (treeEntries g oid) name = some e ∧ isDir = true := by
  unfold entryAt at h
  split_ifs at h with hdir
  obtain ⟨e, he, rfl⟩ := Option.map_eq_some_iff.mp h
  exact ⟨e, rfl, he, hdir⟩

/-- An inode is the child of the one directory that maps it, under its name. -/
theorem childAt_node {a : Place} {name : Str} {i : Nat}
    (h : childAt g v a name = some (.node i)) :
    ∃ d, a = .node d ∧ v.liveChild d name = some i ∧ isDots name = false := by
  cases hdots : isDots name with
  | true => simp [childAt_dots hdots] at h
  | false =>
    cases a with
    | entry e =>
      rw [childAt_entry hdots] at h
      obtain ⟨e', heq, -⟩ := entryAt_eq_some h
      simp at heq
    | node d =>
      refine ⟨d, rfl, ?_, rfl⟩
      cases hids : v.dirChildren d with
      | some ids =>
        rw [childAt_listed hdots hids] at h
        obtain ⟨j, hj, heq⟩ := Option.map_eq_some_iff.mp h
        cases heq
        exact hj
      | none =>
        unfold childAt at h
        simp only [hdots, Bool.false_eq_true, if_false, hids] at h
        obtain ⟨n, -, h⟩ := Option.bind_eq_some_iff.mp h
        obtain ⟨e', heq, -⟩ := entryAt_eq_some h
        simp at heq

theorem childAt_live (hv : v.WellFormed) {d i : Nat} {name : Str} (hdots : isDots name = false)
    (h : v.liveChild d name = some i) : childAt g v (.node d) name = some (.node i) := by
  obtain ⟨hi, -⟩ := liveChild_eq_some.mp h
  obtain ⟨-, ids, hids, -⟩ := hv.child d name i hi
  rw [childAt_listed hdots hids, h]
  rfl

theorem liveChild_node {d i : Nat} {name : Str} (h : v.liveChild d name = some i) :
    ∃ n, v.nodes i = some n ∧ n.isDeleted = false := by
  obtain ⟨-, n, hn⟩ := liveChild_eq_some.mp h
  exact ⟨n, getNode_eq_some.mp hn⟩

/-- One path leads to an inode. -/
theorem placeAt_unique (hv : v.WellFormed) {p q : List Str} {i : Nat} (hp : placeAt g v p = some (.node i))
    (hq : placeAt g v q = some (.node i)) : p = q := by
  have hown : ∃ j, Place.node i = .node j := ⟨i, rfl⟩
  refine Walk.walk_unique (fun a => ∃ i, a = .node i) ?_ ?_ ?_ hown hp hq
  · intro a name h
    obtain ⟨d, -, hi, -⟩ := childAt_node h
    obtain ⟨-, -, -, -, hroot⟩ := mapped_node hv (liveChild_eq_some.mp hi).1
    exact hroot rfl
  · rintro _ ⟨j, rfl⟩ a name h
    obtain ⟨d, rfl, -⟩ := childAt_node h
    exact ⟨d, rfl⟩
  · rintro _ ⟨j, rfl⟩ a name a' name' h h'
    obtain ⟨d, rfl, hj, -⟩ := childAt_node h
    obtain ⟨d', rfl, hj', -⟩ := childAt_node h'
    have heq := mapped_unique hv (liveChild_eq_some.mp hj).1 (liveChild_eq_some.mp hj').1
    simp only [Prod.mk.injEq] at heq
    exact ⟨by rw [heq.1], heq.2⟩

/-- A path to a node with a name ends with that name, in its directory. -/
theorem placeAt_mapped (hv : v.WellFormed) {d i : Nat} {name : Str} (hi : v.childMap (d, name) = some i)
    {path : List Str} (h : placeAt g v path = some (.node i)) :
    ∃ done, path = done ++ [name] ∧ placeAt g v done = some (.node d) ∧ v.liveChild d name = some i ∧
      isDots name = false := by
  rcases List.eq_nil_or_concat path with rfl | ⟨done, last, rfl⟩
  · have heq : rootInode = i := by simpa [placeAt, placeFrom, Walk.walk] using h
    obtain ⟨-, -, -, -, hroot⟩ := mapped_node hv hi
    exact absurd heq.symm hroot
  · rw [placeAt, placeFrom, List.concat_eq_append, Walk.walk_concat] at h
    obtain ⟨a, hdone, ha⟩ := Option.bind_eq_some_iff.mp h
    obtain ⟨d', rfl, hlive, hdots⟩ := childAt_node ha
    have hkey := mapped_unique hv (liveChild_eq_some.mp hlive).1 hi
    simp only [Prod.mk.injEq] at hkey
    obtain ⟨rfl, rfl⟩ := hkey
    exact ⟨done, List.concat_eq_append, hdone, hlive, hdots⟩

/-! ## One tree after another -/

/-- What a place of one tree is in a later one. -/
inductive Becomes (g : GitEngine) (v v' : VfsManager) : Place → Place → Prop
  | node {i : Nat} {n : VfsNode} (hn : v.nodes i = some n) : Becomes g v v' (.node i) (.node i)
  | entry (e : GitTreeEntry) : Becomes g v v' (.entry e) (.entry e)
  | made {d j : Nat} {e : GitTreeEntry} (hnew : v.nodes j = none) (hn : v'.nodes j = some (entryNode g d j e))
      (hids : v'.dirChildren j = none) : Becomes g v v' (.entry e) (.node j)

/-- The later tree has the inodes of the earlier one, and its names lead to the same places. -/
structure Tracks (g : GitEngine) (v v' : VfsManager) : Prop where
  nodes : ∀ i n, v.nodes i = some n → v'.nodes i = some n
  edges : ∀ d n name, v.nodes d = some n →
    Option.Rel (Becomes g v v') (childAt g v (.node d) name) (childAt g v' (.node d) name)

theorem entryAt_becomes (isDir : Bool) (oid name : Str) :
    Option.Rel (Becomes g v v') (entryAt g isDir oid name) (entryAt g isDir oid name) := by
  cases h : entryAt g isDir oid name with
  | none => exact .none
  | some a =>
    obtain ⟨e, rfl, -⟩ := entryAt_eq_some h
    exact .some (.entry e)

theorem Tracks.child (ht : Tracks g v v') {a b : Place} (name : Str) (h : Becomes g v v' a b) :
    Option.Rel (Becomes g v v') (childAt g v a name) (childAt g v' b name) := by
  cases hdots : isDots name with
  | true =>
    rw [childAt_dots hdots, childAt_dots hdots]
    exact .none
  | false =>
    cases h with
    | node hn => exact ht.edges _ _ name hn
    | entry e =>
      rw [childAt_entry hdots, childAt_entry hdots]
      exact entryAt_becomes _ _ _
    | @made d j e hnew hn hids =>
      rw [childAt_entry hdots, childAt_unlisted hdots hids hn]
      exact entryAt_becomes e.mode.isDir e.oid name

theorem Tracks.place (ht : Tracks g v v') {a b : Place} (h : Becomes g v v' a b) (path : List Str) :
    Option.Rel (Becomes g v v') (placeFrom g v a path) (placeFrom g v' b path) := by
  have hedge (a b : Place) (name : Str) (hr : Becomes g v v' a b) := ht.child name hr
  exact Walk.walk_rel hedge path h

/-! ## Populating a directory -/

theorem lastEntry_cons (e : GitTreeEntry) (es : List GitTreeEntry) (name : Str) :
    lastEntry (e :: es) name = (lastEntry es name).or (if e.name = name then some e else none) := by
  unfold lastEntry
  rw [List.reverse_cons, List.find?_append]
  congr 1
  by_cases hname : e.name = name
  · simp [hname]
  · simp [hname]

/-- A name of a new directory leads to its last entry of that name. -/
theorem foldl_insertNode_last (d : Nat) (es : List GitTreeEntry) (next : Nat) (v : VfsManager) (name : Str) :
    (lastEntry es name = none ∧
      ((entryNodes g d es next).foldl insertNode v).childMap (d, name) = v.childMap (d, name)) ∨
    ∃ i e, lastEntry es name = some e ∧ es[i]? = some e ∧
      ((entryNodes g d es next).foldl insertNode v).childMap (d, name) = some (next + i) := by
  induction es generalizing next v with
  | nil => exact .inl ⟨rfl, rfl⟩
  | cons e es ih =>
    rw [entryNodes, List.foldl_cons, lastEntry_cons]
    rcases ih (next + 1) (v.insertNode (entryNode g d next e)) with ⟨hnone, h⟩ | ⟨i, e', hlast, hi, h⟩
    · rw [hnone, h, insertNode_childMap, Option.none_or]
      by_cases hname : e.name = name
      · refine .inr ⟨0, e, by rw [if_pos hname], rfl, ?_⟩
        rw [if_pos (by rw [← hname]; rfl)]
        rfl
      · refine .inl ⟨by rw [if_neg hname], ?_⟩
        rw [if_neg]
        simp only [Prod.mk.injEq, not_and]
        exact fun _ h => hname h.symm
    · refine .inr ⟨i + 1, e', by rw [hlast]; rfl, by simpa using hi, ?_⟩
      rw [h]
      congr 1
      omega

theorem populate_last {d : Nat} (oid : Str) (hv : v.WellFormed) (hd : v.dirChildren d = none) (name : Str) :
    (lastEntry (treeEntries g oid) name = none ∧ (v.populate g d oid).childMap (d, name) = none) ∨
    ∃ i e, lastEntry (treeEntries g oid) name = some e ∧ (treeEntries g oid)[i]? = some e ∧
      (v.populate g d oid).childMap (d, name) = some (v.nextInode + i) := by
  rw [populate_eq (hv.unmapped hd), ← hv.unmapped hd name]
  exact foldl_insertNode_last d _ _ { v with nextInode := _ } name

theorem populate_liveChild_ne {d d' : Nat} {oid : Str} (hv : v.WellFormed)
    (hd : v.dirChildren d = none) (hne : d' ≠ d) (name : Str) :
    (v.populate g d oid).liveChild d' name = v.liveChild d' name := by
  unfold liveChild
  rcases populate_childMap (hv.unmapped hd) g oid (d', name) with ⟨hmap, -⟩ | ⟨hd', -⟩
  · rw [hmap]
    cases hi : v.childMap (d', name) with
    | none => rfl
    | some i =>
      obtain ⟨m, hm, -⟩ := mapped_node hv hi
      simp only [getNode, hm, populate_nodes_old hv hd hm]
  · exact absurd hd' hne

/-- Populating a directory changes nothing that can be seen. -/
theorem populate_tracks (hv : v.WellFormed) {d : Nat} {dir : VfsNode} (hd : v.dirChildren d = none)
    (hdir : v.nodes d = some dir) (hisDir : dir.isDir = true) :
    Tracks g v (v.populate g d dir.oid) where
  nodes i n hn := populate_nodes_old hv hd hn
  edges d' n name hn := by
    cases hdots : isDots name with
    | true =>
      rw [childAt_dots hdots, childAt_dots hdots]
      exact .none
    | false =>
      by_cases hsame : d' = d
      · subst hsame
        have hlist : (v.populate g d' dir.oid).dirChildren d' = some _ :=
          (populate_dirChildren (hv.unmapped hd) d').trans (if_pos rfl)
        rw [childAt_unlisted hdots hd hdir, childAt_listed hdots hlist]
        unfold entryAt
        rw [if_pos hisDir]
        rcases populate_last (g := g) dir.oid hv hd name with ⟨hnone, hmap⟩ | ⟨i, e, hlast, hi, hmap⟩
        · rw [hnone, liveChild_of_unmapped hmap]
          exact .none
        · have hnode := populate_nodes_new (g := g) hv hd hi
          have hlive : (v.populate g d' dir.oid).liveChild d' name = some (v.nextInode + i) :=
            liveChild_eq_some.mpr ⟨hmap, _, getNode_eq_some.mpr ⟨hnode, rfl⟩⟩
          rw [hlast, hlive]
          refine .some (.made (hv.not_node (by omega)) hnode ?_)
          have hlt := hv.fresh d' dir hdir
          rw [populate_dirChildren (hv.unmapped hd), if_neg (by omega)]
          exact hv.unlisted (by omega)
      · have hlist : (v.populate g d dir.oid).dirChildren d' = v.dirChildren d' :=
          (populate_dirChildren (hv.unmapped hd) d').trans (if_neg hsame)
        cases hids : v.dirChildren d' with
        | some ids =>
          rw [hids] at hlist
          rw [childAt_listed hdots hids, childAt_listed hdots hlist,
            populate_liveChild_ne hv hd hsame]
          cases hlive : v.liveChild d' name with
          | none => exact .none
          | some i =>
            obtain ⟨m, hm, -⟩ := liveChild_node hlive
            exact .some (.node hm)
        | none =>
          rw [hids] at hlist
          rw [childAt_unlisted hdots hids hn, childAt_unlisted hdots hlist (populate_nodes_old hv hd hn)]
          exact entryAt_becomes _ _ _

theorem Tracks.refl (v : VfsManager) : Tracks g v v where
  nodes i n hn := hn
  edges d n name hn := by
    cases h : childAt g v (.node d) name with
    | none => exact .none
    | some a =>
      cases a with
      | entry e => exact .some (.entry e)
      | node i =>
        obtain ⟨d', -, hi, -⟩ := childAt_node h
        obtain ⟨m, hm, -⟩ := liveChild_node hi
        exact .some (.node hm)

theorem ensureDirPopulated_tracks (hv : v.WellFormed) (d : Nat) : Tracks g v (v.ensureDirPopulated g d).2 := by
  obtain ⟨ids, -, heq⟩ | ⟨dir, hd, hdir, hisDir, heq⟩ | ⟨e, heq⟩ := ensureDirPopulated_cases g v d
  · rw [heq]
    exact .refl v
  · rw [heq]
    exact populate_tracks hv hd hdir hisDir
  · rw [heq]
    exact .refl v

/-! ## A change of the tables -/

/-- A place whose inode is there. -/
def Known (v : VfsManager) : Place → Prop
  | .node i => ∃ n, v.nodes i = some n
  | .entry _ => True

theorem childAt_known {a b : Place} {name : Str} (h : childAt g v a name = some b) : v.Known b := by
  cases b with
  | entry e => trivial
  | node i =>
    obtain ⟨d, -, hi, -⟩ := childAt_node h
    obtain ⟨n, hn, -⟩ := liveChild_node hi
    exact ⟨n, hn⟩

/-- The edges that are cut at the inodes. -/
def cutAt (cut : Nat → Str → Prop) : Place → Str → Prop
  | .node d, name => cut d name
  | .entry _, _ => False

/-- A change of some nodes and of where some names lead. -/
structure Edits (cut : Nat → Str → Prop) (v v' : VfsManager) : Prop where
  nodes : ∀ i n, v.nodes i = some n →
    ∃ n', v'.nodes i = some n' ∧ n'.mode = n.mode ∧ n'.isDir = n.isDir ∧ n'.oid = n.oid
  lists : ∀ d n, v.nodes d = some n → (v'.dirChildren d).isSome = (v.dirChildren d).isSome
  live : ∀ d n name, v.nodes d = some n → isDots name = false → ¬ cut d name →
    v'.liveChild d name = v.liveChild d name

variable {cut : Nat → Str → Prop}

theorem Edits.child (he : Edits cut v v') {a : Place} {name : Str} (ha : v.Known a) (hcut : ¬ cutAt cut a name) :
    childAt g v' a name = childAt g v a name := by
  cases hdots : isDots name with
  | true => rw [childAt_dots hdots, childAt_dots hdots]
  | false =>
    cases a with
    | entry e => rw [childAt_entry hdots, childAt_entry hdots]
    | node d =>
      obtain ⟨n, hn⟩ := ha
      have hlist := he.lists d n hn
      cases hids : v.dirChildren d with
      | some ids =>
        rw [hids, Option.isSome_some] at hlist
        obtain ⟨ids', hids'⟩ := Option.isSome_iff_exists.mp hlist
        rw [childAt_listed hdots hids, childAt_listed hdots hids', he.live d n name hn hdots hcut]
      | none =>
        rw [hids, Option.isSome_none] at hlist
        obtain ⟨n', hn', -, hdir, hoid⟩ := he.nodes d n hn
        rw [childAt_unlisted hdots hids hn, childAt_unlisted hdots (by simpa using hlist) hn', hdir, hoid]

/-- Edges that are cut where there is no child are on no path that leads somewhere. -/
theorem avoids_of_childless {a b : Place} {path : List Str}
    (hcut : ∀ d name, cut d name → childAt g v (.node d) name = none) (h : placeFrom g v a path = some b) :
    Walk.Avoids (childAt g v) (cutAt cut) a path := by
  rw [Walk.avoids_iff]
  rintro done name rest c rfl hdone hc
  cases c with
  | entry e => exact hc
  | node d =>
    rw [placeFrom, Walk.walk_append, hdone, Option.bind_some, Walk.walk, hcut d name hc] at h
    simp at h

/-- A path that takes no edge that is cut leads to the same place. -/
theorem Edits.place (he : Edits cut v v') {a : Place} {path : List Str} (ha : v.Known a)
    (havoid : Walk.Avoids (childAt g v) (cutAt cut) a path) : placeFrom g v' a path = placeFrom g v a path := by
  have hkeep (a : Place) (name : Str) (b : Place) (_ : v.Known a) (h : childAt g v a name = some b) := childAt_known h
  have hedge (a : Place) (name : Str) (ha : v.Known a) (hc : ¬ cutAt cut a name) := he.child (g := g) ha hc
  exact Walk.walk_eq hkeep hedge path ha havoid

/-! ## What is seen of a place -/

structure Shown where
  inode : Option Nat
  mode : TreeEntryMode
  isDir : Bool
  oid : Str
  deriving DecidableEq, Repr

/-- Seen again: an inode that was given stays, and a place may be given one. -/
structure Shown.Keeps (s s' : Shown) : Prop where
  inode : ∀ i, s.inode = some i → s'.inode = some i
  mode : s'.mode = s.mode
  isDir : s'.isDir = s.isDir
  oid : s'.oid = s.oid

theorem Shown.Keeps.trans {s s' s'' : Shown} (h : s.Keeps s') (h' : s'.Keeps s'') : s.Keeps s'' where
  inode i hi := h'.inode i (h.inode i hi)
  mode := h'.mode.trans h.mode
  isDir := h'.isDir.trans h.isDir
  oid := h'.oid.trans h.oid

def shown (v : VfsManager) : Place → Option Shown
  | .node i => (v.nodes i).map fun n => ⟨some i, n.mode, n.isDir, n.oid⟩
  | .entry e => some ⟨none, e.mode, e.mode.isDir, e.oid⟩

/-- Every path from a place leads to what it led to from a place of an earlier tree. -/
def SameFrom (g : GitEngine) (v v' : VfsManager) (a b : Place) : Prop :=
  ∀ path, Option.Rel Shown.Keeps ((placeFrom g v a path).bind v.shown) ((placeFrom g v' b path).bind v'.shown)

/-- Nothing that can be seen has changed, from whichever inode a path starts. -/
def SameTree (g : GitEngine) (v v' : VfsManager) : Prop :=
  ∀ i n, v.nodes i = some n → SameFrom g v v' (.node i) (.node i)

theorem Tracks.shown (ht : Tracks g v v') {a b : Place} (h : Becomes g v v' a b) :
    Option.Rel Shown.Keeps (v.shown a) (v'.shown b) := by
  cases h with
  | node hn =>
    simp only [VfsManager.shown, hn, ht.nodes _ _ hn, Option.map_some]
    exact .some ⟨fun _ h => h, rfl, rfl, rfl⟩
  | entry e => exact .some ⟨fun _ h => h, rfl, rfl, rfl⟩
  | made hnew hn hids =>
    simp only [VfsManager.shown, hn, Option.map_some]
    exact .some ⟨by simp, rfl, rfl, rfl⟩

theorem Tracks.sameTree (ht : Tracks g v v') : SameTree g v v' := by
  intro i n hn path
  have hplace := ht.place (.node hn) path
  cases ha : placeFrom g v (.node i) path with
  | none =>
    rw [ha] at hplace
    cases hb : placeFrom g v' (.node i) path with
    | none => exact .none
    | some b =>
      rw [hb] at hplace
      cases hplace
  | some a =>
    rw [ha] at hplace
    obtain ⟨b, hb, hr⟩ := Walk.rel_some_left hplace
    rw [hb]
    exact ht.shown hr

theorem placeFrom_known {a b : Place} {path : List Str} (ha : v.Known a) (h : placeFrom g v a path = some b) :
    v.Known b := by
  rcases List.eq_nil_or_concat path with rfl | ⟨path, name, rfl⟩
  · cases h
    exact ha
  · rw [placeFrom, List.concat_eq_append, Walk.walk_concat] at h
    obtain ⟨c, -, hc⟩ := Option.bind_eq_some_iff.mp h
    exact childAt_known hc

theorem Edits.shown (he : Edits cut v v') {a : Place} (ha : v.Known a) :
    Option.Rel Shown.Keeps (v.shown a) (v'.shown a) := by
  cases a with
  | entry e => exact .some ⟨fun _ h => h, rfl, rfl, rfl⟩
  | node i =>
    obtain ⟨n, hn⟩ := ha
    obtain ⟨n', hn', hmode, hdir, hoid⟩ := he.nodes i n hn
    simp only [VfsManager.shown, hn, hn', Option.map_some]
    exact .some ⟨fun _ h => h, hmode, hdir, hoid⟩

/-- What a path without edges that are cut leads to is seen as before. -/
theorem Edits.sees (he : Edits cut v v') {a : Place} {path : List Str} (ha : v.Known a)
    (havoid : Walk.Avoids (childAt g v) (cutAt cut) a path) :
    Option.Rel Shown.Keeps ((placeFrom g v a path).bind v.shown) ((placeFrom g v' a path).bind v'.shown) := by
  rw [he.place ha havoid]
  cases hb : placeFrom g v a path with
  | none => exact .none
  | some b => exact he.shown (placeFrom_known ha hb)

theorem SameFrom.trans {v'' : VfsManager} {a b c : Place} (h : SameFrom g v v' a b) (h' : SameFrom g v' v'' b c) :
    SameFrom g v v'' a c := by
  intro path
  apply Walk.rel_trans (T := Shown.Keeps) ?_ (h path) (h' path)
  intro s s' s'' hs hs'
  exact hs.trans hs'

theorem SameTree.trans {v'' : VfsManager} (h : SameTree g v v') (h' : SameTree g v' v'') : SameTree g v v'' := by
  intro i n hn
  have hfirst := h i n hn []
  simp only [placeFrom, Walk.walk, Option.bind_some, VfsManager.shown, hn, Option.map_some] at hfirst
  obtain ⟨s, hs, -⟩ := Walk.rel_some_left hfirst
  obtain ⟨n', hn', -⟩ := Option.map_eq_some_iff.mp hs
  exact (h i n hn).trans (h' i n' hn')

theorem ensureDirPopulated_sameTree (hv : v.WellFormed) (d : Nat) :
    SameTree g v (v.ensureDirPopulated g d).2 := (ensureDirPopulated_tracks hv d).sameTree

end VfsManager

end GitNfs
