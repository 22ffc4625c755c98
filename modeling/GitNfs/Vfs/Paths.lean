import GitNfs.Git.Builder
import GitNfs.Lib.Ascent
import GitNfs.Vfs.Consistent

/-! # The tree of the inodes

Every parent chain ends at the root, as long as no rename moves a node below itself, and the path of a node
leads back to it.
-/

namespace GitNfs

/-- A name that can stand between two slashes of a path and that `lookup` looks for in the tables. -/
def ValidName (name : Str) : Prop := name ≠ [] ∧ name ≠ ['.'] ∧ name ≠ ['.', '.'] ∧ '/' ∉ name

instance (name : Str) : Decidable (ValidName name) := inferInstanceAs (Decidable (_ ∧ _))

def GitEngine.ValidNames (g : GitEngine) : Prop :=
  ∀ oid, ∀ e ∈ VfsManager.treeEntries g oid, ValidName e.name

namespace VfsManager

/-- The parent of a node; what is not there stays where it is. -/
def parentOf (v : VfsManager) (i : Nat) : Nat :=
  match v.nodes i with
  | some n => n.parentId
  | none => i

end VfsManager

/-- A move to a directory that is not below the node, nor the node itself. -/
def VfsCall.notBelow : VfsCall.Move := fun v i _ dst => ¬ Ascent.Above v.parentOf dst.1 i

namespace VfsManager

open Ascent

variable {g : GitEngine} {v v' : VfsManager}

theorem parentOf_node {i : Nat} {n : VfsNode} (h : v.nodes i = some n) : v.parentOf i = n.parentId := by
  simp only [parentOf, h]

theorem parentOf_root (hv : v.WellFormed) : v.parentOf rootInode = rootInode := by
  obtain ⟨n, hn, -, -, hp⟩ := hv.root
  rw [parentOf_node hn, hp]

def IsNode (v : VfsManager) (i : Nat) : Prop := ∃ n, v.nodes i = some n

theorem isNode_parentOf (hv : v.WellFormed) (i : Nat) (h : v.IsNode i) : v.IsNode (v.parentOf i) := by
  obtain ⟨n, hn⟩ := h
  obtain ⟨p, hp, -⟩ := hv.parent i n hn
  exact ⟨p, by rw [parentOf_node hn, hp]⟩

theorem isNode_iterate (hv : v.WellFormed) {i : Nat} (h : v.IsNode i) (k : Nat) : v.IsNode (v.parentOf^[k] i) := by
  induction k with
  | zero => exact h
  | succ k ih =>
    rw [Function.iterate_succ_apply']
    exact isNode_parentOf hv _ ih

/-! ## Every chain ends at the root -/

def Rooted (v : VfsManager) : Prop := ∀ i, v.IsNode i → Above v.parentOf i rootInode

theorem Rooted.new (rootOid : Str) : (VfsManager.new rootOid).Rooted := by
  rintro i ⟨n, hn⟩
  by_cases hi : i = rootInode
  · exact hi ▸ .refl _ _
  · simp [VfsManager.new, hi] at hn

/-- New nodes in directories that are there already. -/
theorem Rooted.grow (hv : v.WellFormed) (h : v.Rooted)
    (hold : ∀ i n, v.nodes i = some n → ∃ m, v'.nodes i = some m ∧ m.parentId = n.parentId)
    (hnew : ∀ i n, v'.nodes i = some n → v.IsNode i ∨ v.IsNode n.parentId) : v'.Rooted := by
  have hagree : ∀ i, v.IsNode i → v'.parentOf i = v.parentOf i := by
    rintro i ⟨n, hn⟩
    obtain ⟨m, hm, hp⟩ := hold i n hn
    rw [parentOf_node hn, parentOf_node hm, hp]
  have hback {i : Nat} (hi : v.IsNode i) : Above v'.parentOf i rootInode :=
    (h i hi).congr (isNode_parentOf hv) hagree hi
  rintro i ⟨n, hn⟩
  rcases hnew i n hn with hi | hp
  · exact hback hi
  · apply Above.step
    rw [parentOf_node hn]
    exact hback hp

theorem parentOf_move (hv : v.WellFormed) {src dst : Nat × Str} {i : Nat} {n : VfsNode}
    (hnodes : ∀ j, v'.nodes j = if j = i then some (moved n src dst)
      else if v.childMap dst = some j then (v.nodes j).map kill else v.nodes j) :
    v'.parentOf = Function.update v.parentOf i dst.1 := by
  funext j
  rw [Function.update_apply]
  unfold parentOf
  rw [hnodes]
  split_ifs with hj hdst
  · rfl
  · obtain ⟨m, hm, -⟩ := mapped_node hv hdst
    rw [hm]
    rfl
  · rfl

theorem Rooted.change {al : Allowed} (hal : al.move = VfsCall.notBelow) (hv : v.WellFormed) (h : v.Rooted)
    (hchange : Change al g v v') : v'.Rooted := by
  cases hchange with
  | @populate d dir hd hdir hisDir =>
    apply h.grow hv
    · exact fun i n hn => ⟨n, populate_nodes_old hv hd hn, rfl⟩
    · intro i n hn
      rcases populate_nodes_cases hv hd hn with hold | ⟨k, e, -, -, rfl⟩
      · exact .inl ⟨n, hold⟩
      · exact .inr ⟨dir, hdir⟩
  | @revive k i n _ _ hi hn hmap hnodes =>
    apply h.grow hv
    · intro j m hm
      rw [hnodes]
      split_ifs with hj
      · rw [hj, hn, Option.some.injEq] at hm
        exact ⟨_, rfl, by rw [← hm]⟩
      · exact ⟨m, hm, rfl⟩
    · intro j m hm
      rw [hnodes] at hm
      split_ifs at hm with hj
      · exact .inl (hj ▸ ⟨n, hn⟩)
      · exact .inl ⟨m, hm⟩
  | @add n _ hid hlive _ hdir _ _ hmap hnodes =>
    obtain ⟨ids, hids⟩ := hdir
    obtain ⟨p, hp, -⟩ := (hv.listed _ ids hids).2.1
    apply h.grow hv
    · intro i m hm
      have := hv.fresh i m hm
      rw [hnodes, if_neg (by omega)]
      exact ⟨m, hm, rfl⟩
    · intro i m hm
      rw [hnodes] at hm
      split_ifs at hm with hi
      · simp only [Option.some.injEq] at hm
        exact .inr ⟨p, hm ▸ hp⟩
      · exact .inl ⟨m, hm⟩
  | @remove k i _ hi hmap hnodes =>
    apply h.grow hv
    · intro j m hm
      rw [hnodes]
      split_ifs with hj
      · rw [← hj, hm]
        exact ⟨kill m, rfl, rfl⟩
      · exact ⟨m, hm, rfl⟩
    · intro j m hm
      rw [hnodes] at hm
      split_ifs at hm with hj
      · obtain ⟨n, hn, -⟩ := Option.map_eq_some_iff.mp hm
        exact .inl (hj ▸ ⟨n, hn⟩)
      · exact .inl ⟨m, hm⟩
  | @move src dst i n _ hi hn hdir _ hmove hmap hnodes =>
    obtain ⟨ids, hids⟩ := hdir
    obtain ⟨p, hp, -⟩ := (hv.listed _ ids hids).2.1
    rw [hal] at hmove
    have hparent := parentOf_move hv hnodes
    rintro j ⟨m, hm⟩
    rw [hparent]
    refine .update hmove (h dst.1 ⟨p, hp⟩) (h j ?_)
    rw [hnodes] at hm
    split_ifs at hm with hj
    · exact hj ▸ ⟨n, hn⟩
    · obtain ⟨n', hn', -⟩ := Option.map_eq_some_iff.mp hm
      exact ⟨n', hn'⟩
    · exact ⟨m, hm⟩

theorem rooted_bounded (hv : v.WellFormed) (h : v.Rooted) {i : Nat} (hi : v.IsNode i) :
    ∃ k < v.nextInode, v.parentOf^[k] i = rootInode := by
  have := (h i hi).bounded (Finset.range v.nextInode) fun k => by
    obtain ⟨n, hn⟩ := isNode_iterate hv hi k
    exact Finset.mem_range.mpr (hv.fresh _ n hn)
  rwa [Finset.card_range] at this

/-! ## Walks up -/

theorem getPathLoop_ends {fuel k i : Nat} (hk : v.parentOf^[k] i = rootInode) (hfuel : k ≤ fuel) :
    v.getPathLoop fuel i ≠ none := by
  induction k generalizing fuel i with
  | zero =>
    unfold getPathLoop
    rw [if_pos (show i = rootInode from hk)]
    simp
  | succ k ih =>
    obtain ⟨fuel, rfl⟩ : ∃ f, fuel = f + 1 := ⟨fuel - 1, by omega⟩
    unfold getPathLoop
    split_ifs with hi
    · simp
    · cases hn : v.nodes i with
      | none => simp
      | some n =>
        rw [Function.iterate_succ_apply, parentOf_node hn] at hk
        simp only
        split_ifs
        · simp
        · simpa using ih hk (Nat.le_of_succ_le_succ hfuel)

/-- A node has a path if its walk up does not go round. -/
theorem getPath_ends (hv : v.WellFormed) (h : v.Rooted) (i : Nat) : v.getPath i ≠ none := by
  by_cases hi : v.IsNode i
  · obtain ⟨k, hlt, hk⟩ := rooted_bounded hv h hi
    simpa [getPath] using getPathLoop_ends hk hlt.le
  · have hnone : v.nodes i = none := by
      rw [Option.eq_none_iff_forall_ne_some]
      exact fun n hn => hi ⟨n, hn⟩
    obtain ⟨r, hr, -⟩ := hv.root
    have := hv.fresh _ r hr
    obtain ⟨fuel, hfuel⟩ : ∃ fuel, v.nextInode = fuel + 1 := ⟨v.nextInode - 1, by omega⟩
    unfold getPath
    rw [hfuel]
    unfold getPathLoop
    split_ifs
    · simp
    · simp [hnone]

theorem dirtyWalk_ends (hv : v.WellFormed) {fuel k i : Nat} (hk : v.parentOf^[k] i = rootInode)
    (hfuel : k ≤ fuel) (dirty : List Nat) : dirtyWalk v fuel i dirty ≠ none := by
  induction k generalizing fuel i dirty with
  | zero =>
    obtain ⟨r, hr, -, -, hp⟩ := hv.root
    unfold dirtyWalk
    cases hn : v.getNode i with
    | none => simp
    | some n =>
      obtain ⟨hn, -⟩ := getNode_eq_some.mp hn
      rw [show i = rootInode from hk, hr, Option.some.injEq] at hn
      simp [← hn, hp]
  | succ k ih =>
    obtain ⟨fuel, rfl⟩ : ∃ f, fuel = f + 1 := ⟨fuel - 1, by omega⟩
    unfold dirtyWalk
    cases hn : v.getNode i with
    | none => simp
    | some n =>
      rw [Function.iterate_succ_apply, parentOf_node (getNode_eq_some.mp hn).1] at hk
      simp only
      generalize List.insert n.parentId _ = dirty'
      split_ifs
      · simp
      · exact ih hk (Nat.le_of_succ_le_succ hfuel) dirty'

/-- `get_path` and the walk over the dirty directories come to an end from every inode. -/
def WalksEnd (v : VfsManager) : Prop :=
  (∀ i, v.getPath i ≠ none) ∧ ∀ i dirty, dirtyWalk v v.nextInode i dirty ≠ none

theorem Rooted.walksEnd (hv : v.WellFormed) (h : v.Rooted) : v.WalksEnd := by
  refine ⟨getPath_ends hv h, fun i dirty => ?_⟩
  by_cases hi : v.IsNode i
  · obtain ⟨k, hlt, hk⟩ := rooted_bounded hv h hi
    exact dirtyWalk_ends hv hk hlt.le dirty
  · have hnone : v.getNode i = none := by
      rw [Option.eq_none_iff_forall_ne_some]
      exact fun n hn => hi ⟨n, (getNode_eq_some.mp hn).1⟩
    unfold dirtyWalk
    simp [hnone]

/-! ## Names along a path -/

/-- The names of all nodes but the root can stand in a path. -/
def Named (v : VfsManager) : Prop := ∀ i n, v.nodes i = some n → i ≠ rootInode → ValidName n.name

theorem Named.new (rootOid : Str) : (VfsManager.new rootOid).Named := by
  intro i n hn hroot
  simp [VfsManager.new, hroot] at hn

theorem Named.change {al : Allowed} (hal : al.name = ValidName) (hg : g.ValidNames) (hv : v.WellFormed)
    (h : v.Named) (hchange : Change al g v v') : v'.Named := by
  intro j m hm hroot
  cases hchange with
  | @populate d dir hd hdir hisDir =>
    rcases populate_nodes_cases hv hd hm with hold | ⟨k, e, he, -, rfl⟩
    · exact h j m hold hroot
    · exact hg dir.oid e (List.mem_of_getElem? he)
  | @revive k i n _ _ hi hn hmap hnodes =>
    rw [hnodes] at hm
    split_ifs at hm with hj
    · simp only [Option.some.injEq] at hm
      subst hm
      exact h i n hn (hj ▸ hroot)
    · exact h j m hm hroot
  | add hid hlive _ hdir hname hfree hmap hnodes =>
    rw [hnodes] at hm
    split_ifs at hm
    · simp only [Option.some.injEq] at hm
      exact hm ▸ hal ▸ hname
    · exact h j m hm hroot
  | remove hi hmap hnodes =>
    rw [hnodes] at hm
    split_ifs at hm with hj
    · obtain ⟨n, hn, rfl⟩ := Option.map_eq_some_iff.mp hm
      exact h _ n hn (hj ▸ hroot)
    · exact h j m hm hroot
  | move hi hn hdir hname hmove hmap hnodes =>
    rw [hnodes] at hm
    split_ifs at hm
    · simp only [Option.some.injEq] at hm
      exact hm ▸ hal ▸ hname
    · obtain ⟨n, hn, rfl⟩ := Option.map_eq_some_iff.mp hm
      exact h j n hn hroot
    · exact h j m hm hroot

/-! ## There and back -/

/-- The node and everything above it is live. -/
def LiveUp (v : VfsManager) (i : Nat) : Prop := ∀ j, Above v.parentOf i j → ∃ n, v.getNode j = some n

theorem lookupParts_append {w : VfsManager} {curr id : Nat} {parts : List Str}
    (h : v.lookupParts g curr parts = (.ok id, w)) (rest : List Str) :
    v.lookupParts g curr (parts ++ rest) = w.lookupParts g id rest := by
  induction parts generalizing v curr with
  | nil =>
    simp only [lookupParts, Prod.mk.injEq, Except.ok.injEq] at h
    obtain ⟨rfl, rfl⟩ := h
    rfl
  | cons part parts ih =>
    rw [lookupParts] at h
    rw [List.cons_append, lookupParts]
    split_ifs at h ⊢
    · exact ih h
    · cases hpart : v.lookup g curr part with
      | mk res u =>
        rw [hpart] at h
        cases res with
        | error e => simp at h
        | ok next => exact ih h

/-- Below the root a live node is found under its name. -/
theorem lookupParts_child (ha : v.Attached) (hn : v.Named) {i : Nat} {n : VfsNode} (hi : v.getNode i = some n)
    (hroot : i ≠ rootInode) : v.lookupParts g n.parentId [n.name] = (.ok i, v) := by
  obtain ⟨hnode, hlive⟩ := getNode_eq_some.mp hi
  obtain ⟨hne, hdot, hdots, -⟩ := hn i n hnode hroot
  have hchild := liveChild_eq_some.mpr ⟨ha i n hnode hlive hroot, n, hi⟩
  unfold lookupParts lookup
  rw [if_neg (by simp [hne, hdot]), if_neg hdot, if_neg hdots, hchild]
  rfl

theorem getPathLoop_finds (ha : v.Attached) (hn : v.Named) {fuel k i : Nat}
    (hk : v.parentOf^[k] i = rootInode) (hfuel : k ≤ fuel) (hlive : v.LiveUp i) :
    ∃ names, v.getPathLoop fuel i = some (.ok names) ∧ (∀ name ∈ names, ValidName name) ∧
      v.lookupParts g rootInode names = (.ok i, v) := by
  have hhere {i : Nat} (hi : i = rootInode) (fuel : Nat) :
      ∃ names, v.getPathLoop fuel i = some (.ok names) ∧ (∀ name ∈ names, ValidName name) ∧
        v.lookupParts g rootInode names = (.ok i, v) := by
    refine ⟨[], ?_, by simp, by rw [hi]; rfl⟩
    unfold getPathLoop
    rw [if_pos hi]
  induction k generalizing fuel i with
  | zero => exact hhere hk fuel
  | succ k ih =>
    by_cases hi : i = rootInode
    · exact hhere hi fuel
    · obtain ⟨fuel, rfl⟩ : ∃ f, fuel = f + 1 := ⟨fuel - 1, by omega⟩
      obtain ⟨n, hget⟩ := hlive i (.refl _ _)
      obtain ⟨hnode, -⟩ := getNode_eq_some.mp hget
      have hparent := parentOf_node hnode
      have hstay : n.parentId ≠ i := by
        intro hp
        rw [hp] at hparent
        rw [Function.iterate_fixed hparent] at hk
        exact hi hk
      rw [Function.iterate_succ_apply, hparent] at hk
      obtain ⟨names, hloop, hvalid, hfind⟩ := ih hk (Nat.le_of_succ_le_succ hfuel) fun j hj =>
        hlive j (.step (hparent ▸ hj))
      refine ⟨names ++ [n.name], ?_, ?_, ?_⟩
      · unfold getPathLoop
        simp only [hi, if_false, hnode, hstay, hloop]
        rfl
      · intro name hname
        rcases List.mem_append.mp hname with hname | hname
        · exact hvalid name hname
        · rw [List.mem_singleton.mp hname]
          exact hn i n hnode hi
      · rw [lookupParts_append hfind]
        exact lookupParts_child ha hn hget hi

theorem joinSlash_ends {name : Str} {names : List Str} (hvalid : ∀ n ∈ name :: names, ValidName n) :
    ∃ c cs, joinSlash (name :: names) = c :: cs ∧ c ≠ '/' ∧ ∀ h : c :: cs ≠ [], (c :: cs).getLast h ≠ '/' := by
  induction names generalizing name with
  | nil =>
    obtain ⟨hne, -, -, hslash⟩ := hvalid name List.mem_cons_self
    obtain ⟨c, cs, rfl⟩ := List.exists_cons_of_ne_nil hne
    refine ⟨c, cs, List.intercalate_singleton, fun hc => hslash (hc ▸ List.mem_cons_self), fun h hc => ?_⟩
    exact hslash (hc ▸ List.getLast_mem h)
  | cons next names ih =>
    obtain ⟨hne, -, -, hslash⟩ := hvalid name List.mem_cons_self
    obtain ⟨c, cs, rfl⟩ := List.exists_cons_of_ne_nil hne
    obtain ⟨c', cs', hrest, -, hlast⟩ := ih fun n hn => hvalid n (List.mem_cons_of_mem _ hn)
    refine ⟨c, cs ++ '/' :: c' :: cs', ?_, fun hc => hslash (hc ▸ List.mem_cons_self), fun h => ?_⟩
    · unfold joinSlash at hrest ⊢
      rw [List.intercalate_cons_cons, hrest]
      simp
    · have heq : c :: (cs ++ '/' :: c' :: cs') = (c :: cs ++ ['/']) ++ c' :: cs' := by simp
      rw [List.getLast_congr h _ heq, List.getLast_append_of_ne_nil _ (List.cons_ne_nil _ _)]
      · exact hlast (List.cons_ne_nil _ _)
      · simp

theorem trimMatches_joinSlash {names : List Str} (hvalid : ∀ name ∈ names, ValidName name) :
    trimMatches '/' (joinSlash names) = joinSlash names := by
  cases names with
  | nil => rfl
  | cons name names =>
    obtain ⟨c, cs, heq, hc, hlast⟩ := joinSlash_ends hvalid
    rw [heq]
    unfold trimMatches
    rw [List.dropWhile_cons_of_neg (by simpa using hc), List.rdropWhile_eq_self_iff]
    intro h
    simpa using hlast h

theorem lookupPath_joinSlash {names : List Str} (hvalid : ∀ name ∈ names, ValidName name) :
    v.lookupPath g (joinSlash names) = v.lookupParts g rootInode names := by
  unfold lookupPath
  rw [trimMatches_joinSlash hvalid]
  cases names with
  | nil => rfl
  | cons name names =>
    have hne : joinSlash (name :: names) ≠ [] := by
      obtain ⟨c, cs, heq, -⟩ := joinSlash_ends hvalid
      rw [heq]
      exact List.cons_ne_nil c cs
    simp only [hne, if_false]
    unfold joinSlash
    rw [List.splitOn_intercalate '/' (fun l hl => (hvalid l hl).2.2.2) (List.cons_ne_nil _ _)]

/-- The path of a live node under live directories leads back to it. -/
def RoundTrips (g : GitEngine) (v : VfsManager) : Prop :=
  ∀ i, v.LiveUp i → ∃ path, v.getPath i = some (.ok path) ∧ (v.lookupPath g path).1 = .ok i

theorem Rooted.roundTrips (hv : v.WellFormed) (h : v.Rooted) (ha : v.Attached) (hn : v.Named) :
    v.RoundTrips g := by
  intro i hlive
  obtain ⟨n, hget⟩ := hlive i (.refl _ _)
  obtain ⟨k, hlt, hk⟩ := rooted_bounded hv h ⟨n, (getNode_eq_some.mp hget).1⟩
  obtain ⟨names, hloop, hvalid, hfind⟩ := getPathLoop_finds (g := g) ha hn hk hlt.le hlive
  refine ⟨joinSlash names, ?_, ?_⟩
  · unfold getPath
    rw [hloop]
    rfl
  · rw [lookupPath_joinSlash hvalid, hfind]

/-! ## Over a run -/

structure Tree (v : VfsManager) : Prop where
  wellFormed : v.WellFormed
  rooted : v.Rooted

namespace Tree

theorem new (rootOid : Str) : (VfsManager.new rootOid).Tree := ⟨.new rootOid, .new rootOid⟩

theorem apply (h : v.Tree) {call : VfsCall} (hok : call.Moves g VfsCall.notBelow v) :
    (call.apply g v).Tree where
  wellFormed := h.wellFormed.apply call
  rooted := by
    have hchanges : Changes ⟨True, True, fun _ => True, VfsCall.notBelow⟩ g v (call.apply g v) :=
      apply_changes h.wellFormed call (.inr trivial) (fun _ _ => trivial) (.inl trivial) hok
    exact hchanges.keeps (fun _ _ hv hc hr => hr.change rfl hv hc) h.rooted

/-- A node that is moved below itself has no way up to the root. -/
theorem broken (h : v.Tree) {call : VfsCall} (hnot : ¬ call.Moves g VfsCall.notBelow v) :
    ¬ (call.apply g v).Rooted := by
  cases call with
  | rename fd fn td tn =>
    simp only [VfsCall.Moves, VfsCall.notBelow, not_forall, not_not] at hnot
    obtain ⟨i, ids, hi, hids, hbelow⟩ := hnot
    have hv₂ := (h.wellFormed.ensureDirPopulated (g := g) fd).ensureDirPopulated (g := g) td
    obtain ⟨n, hn, -, hnodes⟩ := rename_tables (fd, fn) (td, tn) h.wellFormed rfl hi hids
    obtain ⟨-, -, -, -, hroot⟩ := mapped_node hv₂ hi
    intro hr
    have := hr i ⟨_, by rw [VfsCall.apply, hnodes, if_pos rfl]⟩
    rw [VfsCall.apply, parentOf_move hv₂ hnodes] at this
    exact not_above_update (parentOf_root hv₂) hroot hbelow this
  | _ => exact absurd trivial hnot

end Tree

/-- The state of a client that gives valid names and makes no directory over a live name. -/
structure Mapped (v : VfsManager) : Prop extends v.Tree where
  attached : v.Attached
  named : v.Named

namespace Mapped

theorem new (rootOid : Str) : (VfsManager.new rootOid).Mapped := ⟨.new rootOid, .new rootOid, .new rootOid⟩

theorem apply (hg : g.DistinctNames) (hg' : g.ValidNames) (h : v.Mapped) {call : VfsCall}
    (hnames : ∀ name ∈ call.names, ValidName name) (hfresh : call.FreshDir g v)
    (hmove : call.Moves g VfsCall.notBelow v) : (call.apply g v).Mapped := by
  have hchanges : Changes ⟨False, True, ValidName, VfsCall.notBelow⟩ g v (call.apply g v) :=
    apply_changes h.wellFormed call (.inr trivial) hnames (.inr hfresh) hmove
  refine ⟨h.toTree.apply hmove, ?_, ?_⟩
  · exact hchanges.keeps (fun _ _ hv hc ha => ha.change id hg hv hc) h.attached
  · exact hchanges.keeps (fun _ _ hv hc hn => hn.change rfl hg' hv hc) h.named

end Mapped

/-- In every state of a run the inodes are a tree, exactly if no rename moves a node below itself. In a run
whose names are valid and that makes no directory over a live name, every path then leads back. -/
theorem tree_iff (g : GitEngine) (rootOid : Str) (calls : List VfsCall) :
    ((∀ done rest v, calls = done ++ rest →
        Run.run (VfsCall.step g) (VfsManager.new rootOid) done = some v → v.Rooted ∧ v.WalksEnd) ↔
      Run.Meets (VfsCall.step g) (fun v call => call.Moves g VfsCall.notBelow v) (VfsManager.new rootOid) calls) ∧
    (g.DistinctNames → g.ValidNames →
      Run.Meets (VfsCall.step g) (fun v call => (∀ name ∈ call.names, ValidName name) ∧
        call.FreshDir g v ∧ call.Moves g VfsCall.notBelow v) (VfsManager.new rootOid) calls →
      ∀ done rest v, calls = done ++ rest →
        Run.run (VfsCall.step g) (VfsManager.new rootOid) done = some v → v.RoundTrips g) := by
  constructor
  · apply Run.meets_iff (I := Tree) (C := fun v => v.Rooted ∧ v.WalksEnd)
    · intro v h
      exact ⟨h.rooted, h.rooted.walksEnd h.wellFormed⟩
    · rintro v call v' h hok hstep
      simp only [VfsCall.step, Option.some.injEq] at hstep
      exact hstep ▸ h.apply hok
    · intro v call h hnot
      exact ⟨_, rfl, fun hc => h.broken hnot hc.1⟩
    · exact .new rootOid
  · rintro hg hg' hmeets done rest v rfl hrun
    have hmapped := Run.invariant (I := Mapped) ?_ (Run.meets_take hmeets) hrun (.new rootOid)
    · exact hmapped.rooted.roundTrips hmapped.wellFormed hmapped.attached hmapped.named
    · rintro v call v' h ⟨hnames, hfresh, hmove⟩ hstep
      simp only [VfsCall.step, Option.some.injEq] at hstep
      exact hstep ▸ h.apply hg hg' hnames hfresh hmove

/-! ### Two runs -/

/-- The part of `notBelow` that can be computed: the way up from the new directory. -/
def apart (g : GitEngine) (v : VfsManager) : VfsCall → Bool
  | .rename fromDirId fromName toDirId _ =>
    let v := ((v.ensureDirPopulated g fromDirId).2.ensureDirPopulated g toDirId).2
    match v.childMap (fromDirId, fromName) with
    | some i =>
      decide (v.parentOf rootInode = rootInode) && decide (v.parentOf^[v.nextInode] toDirId = rootInode) &&
        (List.range (v.nextInode + 1)).all fun k => v.parentOf^[k] toDirId != i
    | none => true
  | _ => true

theorem moves_of_apart {call : VfsCall} (h : apart g v call = true) : call.Moves g VfsCall.notBelow v := by
  cases call with
  | rename fd fn td tn =>
    intro i ids hi _
    simp only [apart] at h
    rw [hi] at h
    simp only [Bool.and_eq_true, decide_eq_true_eq, List.all_eq_true, List.mem_range, bne_iff_ne] at h
    obtain ⟨⟨hroot, hup⟩, hmeet⟩ := h
    exact not_above_of_fixed hroot hup fun k hk => hmeet k (Nat.lt_succ_of_le hk)
  | _ => trivial

theorem smallBase_validNames : smallBase.ValidNames := by
  intro oid e he
  unfold treeEntries GitEngine.getTree smallBase at he
  by_cases hoid : oid = ['r']
  · simp only [hoid, if_true] at he
    revert e
    decide
  · simp [hoid] at he

theorem smallCalls_apart :
    Run.check (VfsCall.step smallBase) (fun v call => decide (∀ name ∈ call.names, ValidName name) &&
      (decide (call.KeepsNames smallBase v) && apart smallBase v call)) (VfsManager.new ['r']) smallCalls =
      true := by decide +kernel

theorem tree_iff_small :
    ∃ v, Run.run (VfsCall.step smallBase) (VfsManager.new ['r']) smallCalls = some v ∧
      v.RoundTrips smallBase := by
  refine ⟨_, rfl, ?_⟩
  refine (tree_iff smallBase ['r'] smallCalls).2 smallBase_distinctNames smallBase_validNames ?_ smallCalls [] _
    (List.append_nil _).symm rfl
  refine Run.meets_of_check (fun v call h => ?_) smallCalls_apart
  simp only [Bool.and_eq_true, decide_eq_true_eq] at h
  exact ⟨h.1, h.2.1.1, moves_of_apart h.2.2⟩

theorem moved_below_itself :
    ¬ ∀ (g : GitEngine) (rootOid : Str) (calls : List VfsCall) (v : VfsManager),
      g.DistinctNames → g.ValidNames → (∀ call ∈ calls, ∀ name ∈ call.names, ValidName name) →
      Run.run (VfsCall.step g) (VfsManager.new rootOid) calls = some v →
      v.Rooted ∧ v.WalksEnd ∧ v.RoundTrips g := by
  intro h
  obtain ⟨-, ⟨hends, -⟩, -⟩ := h smallBase ['r'] [.mkdir 1 ['e'], .mkdir 4 ['h'], .rename 1 ['e'] 5 ['k']] _
    smallBase_distinctNames smallBase_validNames (by decide) rfl
  exact hends 4 (by decide +kernel)

end VfsManager

end GitNfs
