import GitNfs.Lib.Run
import GitNfs.Vfs.WellFormed
import Mathlib.Logic.Relation

/-! # Calls on the inodes

What a client can ask of the tables, in any order, and what one call can do to them.
-/

namespace GitNfs

inductive VfsCall
  | lookup (dirId : Nat) (name : Str)
  | listDir (dirId : Nat)
  | createFile (dirId : Nat) (name : Str) (mode : TreeEntryMode)
  | mkdir (dirId : Nat) (name : Str)
  | remove (dirId : Nat) (name : Str)
  | rename (fromDirId : Nat) (fromName : Str) (toDirId : Nat) (toName : Str)
  | ensureParentDirs (path : Str)
  deriving DecidableEq, Repr

namespace VfsCall

/-- The tables that a call leaves, whether it succeeds or fails. -/
def apply (g : GitEngine) (v : VfsManager) : VfsCall → VfsManager
  | lookup dirId name => (v.lookup g dirId name).2
  | listDir dirId => (v.listDir g dirId).2
  | createFile dirId name mode => (v.createFile g dirId name mode).2
  | mkdir dirId name => (v.mkdir g dirId name).2
  | remove dirId name => (v.remove g dirId name).2
  | rename fromDirId fromName toDirId toName => (v.rename g fromDirId fromName toDirId toName).2
  | ensureParentDirs path => (v.ensureParentDirs g path).2

def step (g : GitEngine) (v : VfsManager) (call : VfsCall) : Option VfsManager := some (call.apply g v)

/-- The names that a call brings into the tables. -/
def names : VfsCall → List Str
  | createFile _ name _ => [name]
  | mkdir _ name => [name]
  | rename _ _ _ toName => [toName]
  | ensureParentDirs path => components (trimMatches '/' path)
  | _ => []

/-- A directory is made under a name that no live node has. -/
def FreshDir (g : GitEngine) (v : VfsManager) : VfsCall → Prop
  | mkdir dirId name => (v.ensureDirPopulated g dirId).2.liveChild dirId name = none
  | _ => True

def MakesNoFile : VfsCall → Prop
  | createFile _ _ _ => False
  | _ => True

/-- A property of a node that is moved, of the place it comes from and of the place it goes to. -/
abbrev Move := VfsManager → Nat → Nat × Str → Nat × Str → Prop

/-- What a rename moves, it moves as it may. Without a directory to move to it moves nothing. -/
def Moves (g : GitEngine) (ok : Move) (v : VfsManager) : VfsCall → Prop
  | rename fromDirId fromName toDirId toName =>
    let v := ((v.ensureDirPopulated g fromDirId).2.ensureDirPopulated g toDirId).2
    ∀ id ids, v.childMap (fromDirId, fromName) = some id → v.dirChildren toDirId = some ids →
      ok v id (fromDirId, fromName) (toDirId, toName)
  | _ => True

end VfsCall

namespace VfsManager

variable {g : GitEngine} {v : VfsManager}

theorem WellFormed.apply (hv : v.WellFormed) (call : VfsCall) : (call.apply g v).WellFormed := by
  cases call with
  | lookup dirId name => exact hv.lookup dirId name
  | listDir dirId => exact hv.listDir dirId
  | createFile dirId name mode => exact hv.createFile dirId name mode
  | mkdir dirId name => exact hv.mkdir dirId name
  | remove dirId name => exact hv.remove dirId name
  | rename fromDirId fromName toDirId toName => exact hv.rename fromDirId fromName toDirId toName
  | ensureParentDirs path => exact hv.ensureParentDirs path

/-! ## Two tables after a removal and after a move -/

theorem mapped_node (hv : v.WellFormed) {k : Nat × Str} {i : Nat} (h : v.childMap k = some i) :
    ∃ n, v.nodes i = some n ∧ n.parentId = k.1 ∧ n.name = k.2 ∧ i ≠ rootInode := by
  obtain ⟨⟨n, ⟨hroot, hn, hp⟩, hname⟩, -⟩ := hv.child k.1 k.2 i h
  exact ⟨n, hn, hp, hname, hroot⟩

/-- A node has one name. -/
theorem mapped_unique (hv : v.WellFormed) {k k' : Nat × Str} {i : Nat} (h : v.childMap k = some i)
    (h' : v.childMap k' = some i) : k = k' := by
  obtain ⟨n, hn, hp, hname, -⟩ := mapped_node hv h
  obtain ⟨n', hn', hp', hname', -⟩ := mapped_node hv h'
  rw [hn, Option.some.injEq] at hn'
  subst hn'
  exact Prod.ext (hp.symm.trans hp') (hname.symm.trans hname')

def kill (node : VfsNode) : VfsNode := { node with isDeleted := true }

theorem remove_tables (hv : v.WellFormed) {d : Nat} {ids : List Nat} (hids : v.dirChildren d = some ids)
    (name : Str) :
    (∀ k, (v.remove g d name).2.childMap k = if k = (d, name) then none else v.childMap k) ∧
    ∀ j, (v.remove g d name).2.nodes j =
      if v.childMap (d, name) = some j then (v.nodes j).map kill else v.nodes j := by
  unfold remove
  rw [ensureDirPopulated_listed hids]
  simp only
  cases hi : v.childMap (d, name) with
  | none =>
    refine ⟨fun k => ?_, fun j => by simp⟩
    split_ifs with hk
    · exact hk ▸ hi
    · rfl
  | some i =>
    obtain ⟨n, hn, -⟩ := mapped_node hv hi
    simp only [hn]
    refine ⟨fun k => by simp, fun j => ?_⟩
    simp only [setChild_nodes, dropChild_nodes, modifyNode_nodes, Option.some.injEq]
    by_cases hj : j = i
    · subst hj
      simp only [if_true]
      rfl
    · rw [if_neg hj, if_neg (Ne.symm hj)]

/-- The node as it stands under its new name. It is dead if it stood there before. -/
def moved (n : VfsNode) (src dst : Nat × Str) : VfsNode :=
  { n with parentId := dst.1, name := dst.2, isDeleted := n.isDeleted || decide (src = dst) }

theorem attach_tables (src dst : Nat × Str) (hv : v.WellFormed) {i : Nat} {n : VfsNode} {ids : List Nat}
    (hids : v.dirChildren dst.1 = some ids) (hi : v.childMap src = some i) (hn : v.nodes i = some n) :
    let w := (((v.remove g dst.1 dst.2).2.dropChild src.1 i).setChild src.1 src.2 none).attach i dst.1 dst.2
    (∀ k, w.childMap k = if k = dst then some i else if k = src then none else v.childMap k) ∧
    ∀ j, w.nodes j =
      if j = i then some (moved n src dst)
      else if v.childMap dst = some j then (v.nodes j).map kill else v.nodes j := by
  obtain ⟨hmap, hnodes⟩ := remove_tables (g := g) hv hids dst.2
  refine ⟨fun k => ?_, fun j => ?_⟩
  · simp only [attach, pushChild_childMap, setChild_childMap, modifyNode_childMap, dropChild_childMap, hmap]
    split_ifs <;> rfl
  · simp only [attach, pushChild_nodes, setChild_nodes, modifyNode_nodes, dropChild_nodes, hnodes]
    by_cases hj : j = i
    · subst hj
      simp only [if_true, hn]
      by_cases hsame : src = dst
      · simp only [← hsame, hi, if_true, Option.map_some, moved, kill, decide_true, Bool.or_true]
      · rw [if_neg fun h => hsame (mapped_unique hv hi h)]
        simp only [Option.map_some, moved, hsame, decide_false, Bool.or_false]
    · rw [if_neg hj, if_neg hj]

/-! ## What a call can do -/

/-- What calls may do: make a node under the name of a live one, make files, and which names and moves they
may choose. -/
structure Allowed where
  shadow : Prop
  file : Prop
  name : Str → Prop
  move : VfsCall.Move

/-- One change of the nodes and the names. -/
inductive Change (al : Allowed) (g : GitEngine) (v : VfsManager) : VfsManager → Prop
  | populate {d : Nat} {dir : VfsNode} (hd : v.dirChildren d = none) (hdir : v.nodes d = some dir)
      (hisDir : dir.isDir = true) : Change al g v (v.populate g d dir.oid)
  | revive {k : Nat × Str} {i : Nat} {n : VfsNode} {v' : VfsManager} (hfile : al.file)
      (hi : v.childMap k = some i) (hn : v.nodes i = some n) (hmap : v'.childMap = v.childMap)
      (hnodes : ∀ j, v'.nodes j = if j = i then some { n with isDeleted := false, size := 0 } else v.nodes j) :
      Change al g v v'
  | add {n : VfsNode} {v' : VfsManager} (hid : n.id = v.nextInode) (hlive : n.isDeleted = false)
      (hfile : al.file ∨ n.isDir = true) (hdir : ∃ ids, v.dirChildren n.parentId = some ids)
      (hname : al.name n.name) (hfree : al.shadow ∨ v.liveChild n.parentId n.name = none)
      (hmap : ∀ k, v'.childMap k = if k = (n.parentId, n.name) then some n.id else v.childMap k)
      (hnodes : ∀ j, v'.nodes j = if j = n.id then some n else v.nodes j) : Change al g v v'
  | remove {k : Nat × Str} {i : Nat} {v' : VfsManager} (hi : v.childMap k = some i)
      (hmap : ∀ k', v'.childMap k' = if k' = k then none else v.childMap k')
      (hnodes : ∀ j, v'.nodes j = if j = i then (v.nodes i).map kill else v.nodes j) : Change al g v v'
  | move {src dst : Nat × Str} {i : Nat} {n : VfsNode} {v' : VfsManager} (hi : v.childMap src = some i)
      (hn : v.nodes i = some n) (hdir : ∃ ids, v.dirChildren dst.1 = some ids) (hname : al.name dst.2)
      (hmove : al.move v i src dst)
      (hmap : ∀ k, v'.childMap k = if k = dst then some i else if k = src then none else v.childMap k)
      (hnodes : ∀ j, v'.nodes j = if j = i then some (moved n src dst)
        else if v.childMap dst = some j then (v.nodes j).map kill else v.nodes j) : Change al g v v'

/-- Changes of well-formed tables, one after the other. -/
def Changes (al : Allowed) (g : GitEngine) : VfsManager → VfsManager → Prop :=
  Relation.ReflTransGen fun v v' => v.WellFormed ∧ Change al g v v'

section Changes

variable {al : Allowed}

theorem Changes.one (hv : v.WellFormed) {v' : VfsManager} (h : Change al g v v') :
    Changes al g v v' := .single ⟨hv, h⟩

/-- What every change keeps holds when the changes are over. -/
theorem Changes.keeps {I : VfsManager → Prop}
    (hI : ∀ v v', v.WellFormed → Change al g v v' → I v → I v') {v' : VfsManager}
    (h : Changes al g v v') (hv : I v) : I v' := by
  induction h with
  | refl => exact hv
  | tail _ hlast ih => exact hI _ _ hlast.1 hlast.2 ih

theorem ensureDirPopulated_changes (hv : v.WellFormed) (d : Nat) :
    Changes al g v (v.ensureDirPopulated g d).2 := by
  obtain ⟨ids, -, h⟩ | ⟨dir, hd, hdir, hisDir, h⟩ | ⟨e, h⟩ := ensureDirPopulated_cases g v d
  · rw [h]
    exact .refl
  · rw [h]
    exact .one hv (.populate hd hdir hisDir)
  · rw [h]
    exact .refl

theorem lookup_changes (hv : v.WellFormed) (d : Nat) (name : Str) :
    Changes al g v (v.lookup g d name).2 := by
  have hpop : Changes al g v (v.ensureDirPopulated g d).2 := ensureDirPopulated_changes hv d
  unfold lookup
  split_ifs
  · exact .refl
  · split <;> exact .refl
  · split
    · exact .refl
    · split
      · rename_i h
        rwa [h] at hpop
      · rename_i h
        rw [h] at hpop
        split <;> exact hpop

theorem listDir_changes (hv : v.WellFormed) (d : Nat) : Changes al g v (v.listDir g d).2 := by
  have hpop : Changes al g v (v.ensureDirPopulated g d).2 := ensureDirPopulated_changes hv d
  unfold listDir
  split
  · rename_i h
    rwa [h] at hpop
  · rename_i h
    rwa [h] at hpop

theorem liveChild_of_unmapped {d : Nat} {name : Str} (h : v.childMap (d, name) = none) :
    v.liveChild d name = none := by
  simp only [liveChild, h]

theorem createFile_changes (hv : v.WellFormed) (d : Nat) {name : Str} (mode : TreeEntryMode) (hfile : al.file)
    (hname : al.name name) : Changes al g v (v.createFile g d name mode).2 := by
  have hpop : Changes al g v (v.ensureDirPopulated g d).2 := ensureDirPopulated_changes hv d
  unfold createFile
  split
  · rename_i h
    rwa [h] at hpop
  · rename_i v' h
    rw [h] at hpop
    obtain ⟨hv', ids, hids⟩ := hv.ensureDirPopulated_ok h
    split
    · rename_i i node hi
      obtain ⟨j, hj, hnode⟩ := Option.bind_eq_some_iff.mp hi
      obtain ⟨n, hn, heq⟩ := Option.map_eq_some_iff.mp hnode
      simp only [Prod.mk.injEq] at heq
      obtain ⟨rfl, rfl⟩ := heq
      refine hpop.tail ⟨hv', .revive hfile hj hn rfl fun k => ?_⟩
      rw [modifyNode_nodes, hn]
      rfl
    · rename_i hnone
      have hfree : v'.childMap (d, name) = none := by
        cases hi : v'.childMap (d, name) with
        | none => rfl
        | some i =>
          obtain ⟨n, hn, -⟩ := mapped_node hv' hi
          simp [hi, hn] at hnone
      exact hpop.tail ⟨hv', .add rfl rfl (.inl hfile) ⟨ids, hids⟩ hname (.inr (liveChild_of_unmapped hfree))
        (fun k => insertNode_childMap _ _ k) fun j => insertNode_nodes _ _ j⟩

theorem mkdir_changes (hv : v.WellFormed) (d : Nat) {name : Str} (hname : al.name name)
    (hfree : al.shadow ∨ (v.ensureDirPopulated g d).2.liveChild d name = none) :
    Changes al g v (v.mkdir g d name).2 := by
  have hpop : Changes al g v (v.ensureDirPopulated g d).2 := ensureDirPopulated_changes hv d
  unfold mkdir
  split
  · rename_i h
    rwa [h] at hpop
  · rename_i v' h
    rw [h] at hpop hfree
    obtain ⟨hv', hids⟩ := hv.ensureDirPopulated_ok h
    exact hpop.tail ⟨hv', .add rfl rfl (.inr rfl) hids hname hfree (fun k => insertNode_childMap _ _ k)
      fun j => insertNode_nodes _ _ j⟩

theorem remove_changes (hv : v.WellFormed) (d : Nat) (name : Str) :
    Changes al g v (v.remove g d name).2 := by
  have hpop : Changes al g v (v.ensureDirPopulated g d).2 := ensureDirPopulated_changes hv d
  obtain ⟨e, -, h⟩ | ⟨v', i, n, hok, hi, hn, h⟩ := remove_cases g v d name
  · rwa [h]
  · rw [hok] at hpop
    obtain ⟨hv', -⟩ := hv.ensureDirPopulated_ok hok
    rw [h]
    refine hpop.tail ⟨hv', .remove hi (fun k => ?_) fun j => ?_⟩
    · rw [setChild_childMap, dropChild_childMap, modifyNode_childMap]
    · rw [setChild_nodes, dropChild_nodes, modifyNode_nodes]
      rfl

theorem rename_changes (hv : v.WellFormed) (fd : Nat) (fn : Str) (td : Nat) {tn : Str} (hname : al.name tn)
    (hmove : (VfsCall.rename fd fn td tn).Moves g al.move v) :
    Changes al g v (v.rename g fd fn td tn).2 := by
  have hfrom : Changes al g v (v.ensureDirPopulated g fd).2 :=
    ensureDirPopulated_changes hv fd
  have hto : Changes al g (v.ensureDirPopulated g fd).2
      ((v.ensureDirPopulated g fd).2.ensureDirPopulated g td).2 :=
    ensureDirPopulated_changes (hv.ensureDirPopulated fd) td
  obtain ⟨e, -, h | h⟩ | ⟨v₁, v₂, i, n, h₁, h₂, hi, hn, h⟩ := rename_cases g v fd fn td tn
  · rwa [h]
  · rw [h]
    exact hfrom.trans hto
  · rw [h₁] at hfrom hto
    rw [h₂] at hto
    obtain ⟨hv₁, -⟩ := hv.ensureDirPopulated_ok h₁
    obtain ⟨hv₂, ids, hids⟩ := hv₁.ensureDirPopulated_ok h₂
    obtain ⟨hmap, hnodes⟩ := attach_tables (g := g) (fd, fn) (td, tn) hv₂ hids hi hn
    have hok := hmove i ids
    simp only [h₁, h₂] at hok
    rw [h]
    exact (hfrom.trans hto).tail ⟨hv₂, .move hi hn ⟨ids, hids⟩ hname (hok hi hids) hmap hnodes⟩

/-- A name that was not found is free. -/
theorem lookup_error (hv : v.WellFormed) {d : Nat} {name : Str} {e : Error} {v' : VfsManager}
    (h : v.lookup g d name = (.error e, v')) : (v'.ensureDirPopulated g d).2.liveChild d name = none := by
  unfold lookup at h
  split_ifs at h with hdot hdots
  · simp at h
  · split at h
    · simp at h
    · rename_i hnode
      simp only [Prod.mk.injEq] at h
      obtain ⟨-, rfl⟩ := h
      obtain ⟨ids, hids, -⟩ | ⟨dir, -, hdir, -⟩ | ⟨e', heq⟩ := ensureDirPopulated_cases g v d
      · obtain ⟨-, ⟨n, hn, -⟩, -⟩ := hv.listed d ids hids
        simp [hn] at hnode
      · simp [hdir] at hnode
      · rw [heq]
        cases hi : v.childMap (d, name) with
        | none => exact liveChild_of_unmapped hi
        | some i =>
          obtain ⟨-, ids, hids, -⟩ := hv.child d name i hi
          obtain ⟨-, ⟨n, hn, -⟩, -⟩ := hv.listed d ids hids
          simp [hn] at hnode
  · split at h
    · simp at h
    · rename_i hnone
      split at h
      · rename_i hpop
        simp only [Prod.mk.injEq] at h
        obtain ⟨-, rfl⟩ := h
        obtain ⟨ids, -, heq⟩ | ⟨dir, -, -, -, heq⟩ | ⟨e', heq⟩ := ensureDirPopulated_cases g v d
        · simp [heq] at hpop
        · simp [heq] at hpop
        · rw [heq, Prod.mk.injEq] at hpop
          rw [← hpop.2, heq]
          exact hnone
      · rename_i v₁ hpop
        obtain ⟨-, ids, hids⟩ := hv.ensureDirPopulated_ok hpop
        split at h
        · simp at h
        · rename_i hnone'
          simp only [Prod.mk.injEq] at h
          obtain ⟨-, rfl⟩ := h
          rw [ensureDirPopulated_listed hids]
          exact hnone'

theorem ensureDirs_changes (hv : v.WellFormed) (curr : Nat) {parts : List Str}
    (hnames : ∀ part ∈ parts, al.name part) : Changes al g v (v.ensureDirs g curr parts).2 := by
  induction parts generalizing v curr with
  | nil => exact .refl
  | cons part parts ih =>
    have hlookup : Changes al g v (v.lookup g curr part).2 := lookup_changes hv curr part
    have hvl := hv.lookup (g := g) curr part
    have hrest := fun part hpart => hnames part (List.mem_cons_of_mem _ hpart)
    rw [ensureDirs]
    split
    · rename_i id v₁ h
      rw [h] at hlookup hvl
      exact hlookup.trans (ih hvl id hrest)
    · rename_i e v₁ h
      rw [h] at hlookup hvl
      have hmk : Changes al g v₁ (v₁.mkdir g curr part).2 :=
        mkdir_changes hvl curr (hnames part List.mem_cons_self) (.inr (lookup_error hv h))
      have hvm := hvl.mkdir (g := g) curr part
      split
      · rename_i h'
        rw [h'] at hmk
        exact hlookup.trans hmk
      · rename_i node v₂ h'
        rw [h'] at hmk hvm
        exact (hlookup.trans hmk).trans (ih hvm node.id hrest)

/-- A call whose names and moves are as they may be makes such changes. -/
theorem apply_changes (hv : v.WellFormed) (call : VfsCall) (hfile : call.MakesNoFile ∨ al.file)
    (hnames : ∀ name ∈ call.names, al.name name) (hfresh : al.shadow ∨ call.FreshDir g v)
    (hmove : call.Moves g al.move v) : Changes al g v (call.apply g v) := by
  cases call with
  | lookup dirId name => exact lookup_changes hv dirId name
  | listDir dirId => exact listDir_changes hv dirId
  | createFile dirId name mode =>
    exact createFile_changes hv dirId mode (hfile.resolve_left id) (hnames name List.mem_cons_self)
  | mkdir dirId name => exact mkdir_changes hv dirId (hnames name List.mem_cons_self) hfresh
  | remove dirId name => exact remove_changes hv dirId name
  | rename fromDirId fromName toDirId toName =>
    exact rename_changes hv fromDirId fromName toDirId (hnames toName List.mem_cons_self) hmove
  | ensureParentDirs path =>
    have hdirs : Changes al g v
        (v.ensureDirs g rootInode (components (trimMatches '/' path)).dropLast).2 :=
      ensureDirs_changes hv rootInode fun part hpart => hnames part (List.dropLast_subset _ hpart)
    simp only [VfsCall.apply, ensureParentDirs]
    split
    · exact .refl
    · split
      · rename_i h
        rwa [h] at hdirs
      · rename_i h
        rwa [h] at hdirs

end Changes

/-! ## A rename that is done -/

theorem ensureDirPopulated_of_listed {d : Nat} {ids : List Nat}
    (h : (v.ensureDirPopulated g d).2.dirChildren d = some ids) :
    v.ensureDirPopulated g d = (.ok (), (v.ensureDirPopulated g d).2) := by
  obtain ⟨ids, -, heq⟩ | ⟨dir, -, -, -, heq⟩ | ⟨e, heq⟩ := ensureDirPopulated_cases g v d
  · rw [heq]
  · rw [heq]
  · rw [heq] at h
    rw [ensureDirPopulated_listed h] at heq
    simp at heq

theorem ensureDirPopulated_of_ne (hv : v.WellFormed) {d d' : Nat} (hne : d' ≠ d) :
    (v.ensureDirPopulated g d).2.dirChildren d' = v.dirChildren d' := by
  obtain ⟨ids, -, heq⟩ | ⟨dir, hd, -, -, heq⟩ | ⟨e, heq⟩ := ensureDirPopulated_cases g v d
  · rw [heq]
  · rw [heq, populate_dirChildren (hv.unmapped hd), if_neg hne]
  · rw [heq]

theorem ensureDirPopulated_twice (hv : v.WellFormed) (d : Nat) :
    (v.ensureDirPopulated g d).2.ensureDirPopulated g d = v.ensureDirPopulated g d := by
  obtain ⟨ids, -, heq⟩ | ⟨dir, hd, -, -, heq⟩ | ⟨e, heq⟩ := ensureDirPopulated_cases g v d
  · rw [heq]
    exact heq
  · rw [heq]
    exact ensureDirPopulated_listed ((populate_dirChildren (hv.unmapped hd) d).trans (if_pos rfl))
  · rw [heq]
    exact heq

/-- With a node under the first name and a directory for the second, a rename moves the node. -/
theorem rename_tables (src dst : Nat × Str) (hv : v.WellFormed) {i : Nat} {ids : List Nat} {v₂ : VfsManager}
    (hv₂ : ((v.ensureDirPopulated g src.1).2.ensureDirPopulated g dst.1).2 = v₂)
    (hi : v₂.childMap src = some i) (hids : v₂.dirChildren dst.1 = some ids) :
    ∃ n, v₂.nodes i = some n ∧
      (∀ k, (v.rename g src.1 src.2 dst.1 dst.2).2.childMap k =
        if k = dst then some i else if k = src then none else v₂.childMap k) ∧
      ∀ j, (v.rename g src.1 src.2 dst.1 dst.2).2.nodes j =
        if j = i then some (moved n src dst)
        else if v₂.childMap dst = some j then (v₂.nodes j).map kill else v₂.nodes j := by
  have hw₁ := hv.ensureDirPopulated (g := g) src.1
  have hw₂ := hw₁.ensureDirPopulated (g := g) dst.1
  rw [hv₂] at hw₂
  obtain ⟨-, ids', hids', -⟩ := hw₂.child src.1 src.2 i hi
  have hfrom : v.ensureDirPopulated g src.1 = (.ok (), (v.ensureDirPopulated g src.1).2) := by
    by_cases hsame : src.1 = dst.1
    · rw [← hsame, ensureDirPopulated_twice hv] at hv₂
      exact ensureDirPopulated_of_listed (hv₂ ▸ hids')
    · apply ensureDirPopulated_of_listed
      rw [← ensureDirPopulated_of_ne hw₁ hsame, hv₂, hids']
  have hto := ensureDirPopulated_of_listed (hv₂ ▸ hids)
  obtain ⟨n, hn, -⟩ := mapped_node hw₂ hi
  refine ⟨n, hn, ?_⟩
  have heq : (v.rename g src.1 src.2 dst.1 dst.2).2 =
      (((v₂.remove g dst.1 dst.2).2.dropChild src.1 i).setChild src.1 src.2 none).attach i dst.1 dst.2 := by
    unfold rename
    rw [hfrom]
    simp only
    rw [hto, hv₂]
    simp only [hi, hn]
    rfl
  rw [heq]
  exact attach_tables src dst hw₂ hids hi hn

end VfsManager

end GitNfs
