import GitNfs.Lib.Run
import GitNfs.Vfs.Consistent

/-! # Calls that run at the same time

The tables are locked one at a time, so that calls on one directory interleave. A step is what a call does
under one lock, or one draw of an inode number.
-/

namespace GitNfs

open VfsManager

/-- A call on a directory. -/
inductive DirCall where
  | populate
  | lookup (name : Str)
  | createFile (name : Str) (mode : TreeEntryMode)
  | mkdir (name : Str)
  deriving DecidableEq, Repr

/-- Where a call has got to. -/
inductive Pc where
  | look
  | check
  | readDir
  | entries (rest : List GitTreeEntry) (ids : List Nat) (news : List VfsNode)
  | alloc (e : GitTreeEntry) (rest : List GitTreeEntry) (ids : List Nat) (news : List VfsNode)
  | insertNodes (ids : List Nat) (news : List VfsNode)
  | insertNames (ids : List Nat) (news : List VfsNode)
  | insertList (ids : List Nat)
  | populated
  | make
  | putNode (node : VfsNode)
  | putName (node : VfsNode)
  | putList (node : VfsNode)
  | putEmpty (node : VfsNode)
  | done (result : Except Error Nat)
  deriving DecidableEq

namespace VfsManager

def putNode (v : VfsManager) (node : VfsNode) : VfsManager :=
  { v with nodes := Function.update v.nodes node.id (some node) }

def putName (v : VfsManager) (dirId : Nat) (node : VfsNode) : VfsManager :=
  v.setChild dirId node.name (some node.id)

/-- `next_inode.fetch_add(1)`. -/
def drawInode (v : VfsManager) : VfsManager := { v with nextInode := v.nextInode + 1 }

end VfsManager

def DirCall.newNode (dirId id : Nat) : DirCall → Option VfsNode
  | .createFile name mode => some ⟨id, dirId, name, [], mode, false, 0, false⟩
  | .mkdir name => some ⟨id, dirId, name, [], .directory, true, 4096, false⟩
  | _ => none

/-- One step of a call. The result of a call that only populates is written as the directory. -/
def Pc.next (g : GitEngine) (dirId : Nat) (call : DirCall) (v : VfsManager) : Pc → Option (VfsManager × Pc)
  | .look =>
    match call with
    | .lookup name =>
      if name = ['.'] then some (v, .done (.ok dirId))
      else if name = ['.', '.'] then
        match v.nodes dirId with
        | some node => some (v, .done (.ok node.parentId))
        | none => some (v, .done (.error (.dirNotFound dirId)))
      else
        match v.liveChild dirId name with
        | some id => some (v, .done (.ok id))
        | none => some (v, .check)
    | _ => some (v, .check)
  | .check =>
    match v.dirChildren dirId with
    | some _ => some (v, .populated)
    | none => some (v, .readDir)
  | .readDir =>
    match v.nodes dirId with
    | none => some (v, .done (.error (.dirNotFound dirId)))
    | some node =>
      if node.isDir then some (v, .entries (treeEntries g node.oid) [] [])
      else some (v, .done (.error (.notADirectory dirId)))
  | .entries [] ids news => some (v, .insertNodes ids news)
  | .entries (e :: rest) ids news =>
    match v.childMap (dirId, e.name) with
    | some id => some (v, .entries rest (ids ++ [id]) news)
    | none => some (v, .alloc e rest ids news)
  | .alloc e rest ids news =>
    some (v.drawInode, .entries rest (ids ++ [v.nextInode]) (news ++ [entryNode g dirId v.nextInode e]))
  | .insertNodes ids news => some (news.foldl VfsManager.putNode v, .insertNames ids news)
  | .insertNames ids news => some (news.foldl (fun v node => v.putName dirId node) v, .insertList ids)
  | .insertList ids => some (v.setDirChildren dirId ids, .populated)
  | .populated =>
    match call with
    | .populate => some (v, .done (.ok dirId))
    | .lookup name =>
      match v.liveChild dirId name with
      | some id => some (v, .done (.ok id))
      | none => some (v, .done (.error (.childNotFound name dirId)))
    | .createFile name _ =>
      match (v.childMap (dirId, name)).bind fun id => (v.nodes id).map fun _ => id with
      | some id => some (v.modifyNode id fun node => { node with isDeleted := false, size := 0 }, .done (.ok id))
      | none => some (v, .make)
    | .mkdir _ => some (v, .make)
  | .make =>
    match call.newNode dirId v.nextInode with
    | some node => some (v.drawInode, .putNode node)
    | none => none
  | .putNode node => some (v.putNode node, .putName node)
  | .putName node => some (v.putName dirId node, .putList node)
  | .putList node =>
    some (v.pushChild dirId node.id, if node.isDir then .putEmpty node else .done (.ok node.id))
  | .putEmpty node => some (v.setDirChildren node.id [], .done (.ok node.id))
  | .done _ => none

/-! ## One call alone -/

/-- The whole call, as if nothing else ran. -/
def DirCall.whole (g : GitEngine) (dirId : Nat) (v : VfsManager) : DirCall → Except Error Nat × VfsManager
  | .populate => ((v.ensureDirPopulated g dirId).1.map fun _ => dirId, (v.ensureDirPopulated g dirId).2)
  | .lookup name => v.lookup g dirId name
  | .createFile name mode =>
    ((v.createFile g dirId name mode).1.map VfsNode.id, (v.createFile g dirId name mode).2)
  | .mkdir name => ((v.mkdir g dirId name).1.map VfsNode.id, (v.mkdir g dirId name).2)

section Alone

variable {g : GitEngine} {dirId : Nat} {call : DirCall}

/-- Steps of one call and of no other. -/
def Alone (g : GitEngine) (dirId : Nat) (call : DirCall) : VfsManager × Pc → VfsManager × Pc → Prop :=
  Relation.ReflTransGen fun a b => Pc.next g dirId call a.1 a.2 = some b

theorem Alone.step {v v' : VfsManager} {pc pc' : Pc} {b : VfsManager × Pc}
    (h : Pc.next g dirId call v pc = some (v', pc')) (hrest : Alone g dirId call (v', pc') b) :
    Alone g dirId call (v, pc) b := .head h hrest

theorem Alone.last {v v' : VfsManager} {pc pc' : Pc} (h : Pc.next g dirId call v pc = some (v', pc')) :
    Alone g dirId call (v, pc) (v', pc') := .single h

/-- The loop over the entries of a tree. -/
theorem alone_entries (g : GitEngine) (dirId : Nat) (call : DirCall) (v : VfsManager) (rest : List GitTreeEntry)
    (next : Nat) (ids : List Nat) (news : List VfsNode) :
    Alone g dirId call ({ v with nextInode := next }, .entries rest ids news)
      ({ v with nextInode := (populateEntries g v dirId rest next).2.2 },
        .insertNodes (ids ++ (populateEntries g v dirId rest next).1)
          (news ++ (populateEntries g v dirId rest next).2.1)) := by
  induction rest generalizing next ids news with
  | nil =>
    simp only [populateEntries, List.append_nil]
    exact .last rfl
  | cons e rest ih =>
    cases he : v.childMap (dirId, e.name) with
    | some id =>
      have hstep : Pc.next g dirId call { v with nextInode := next } (.entries (e :: rest) ids news) =
          some ({ v with nextInode := next }, .entries rest (ids ++ [id]) news) := by
        simp only [Pc.next, he]
      refine .step hstep ?_
      have hrest := ih next (ids ++ [id]) news
      simp only [populateEntries, he]
      rwa [List.append_assoc, List.singleton_append] at hrest
    | none =>
      have hstep : Pc.next g dirId call { v with nextInode := next } (.entries (e :: rest) ids news) =
          some ({ v with nextInode := next }, .alloc e rest ids news) := by
        simp only [Pc.next, he]
      refine .step hstep (.step rfl ?_)
      have hrest := ih (next + 1) (ids ++ [next]) (news ++ [entryNode g dirId next e])
      simp only [populateEntries, he]
      rwa [List.append_assoc, List.append_assoc, List.singleton_append, List.singleton_append] at hrest

theorem foldl_putNode_putName (news : List VfsNode) (v : VfsManager) (node : VfsNode) :
    news.foldl VfsManager.putNode (v.putName dirId node) =
      (news.foldl VfsManager.putNode v).putName dirId node := by
  induction news generalizing v with
  | nil => rfl
  | cons n news ih =>
    rw [List.foldl_cons, List.foldl_cons, ← ih (v.putNode n)]
    rfl

/-- Nodes and names may be inserted one table after the other. -/
theorem foldl_insertNode_eq (news : List VfsNode) (v : VfsManager) (hparent : ∀ n ∈ news, n.parentId = dirId) :
    news.foldl insertNode v =
      news.foldl (fun v node => v.putName dirId node) (news.foldl VfsManager.putNode v) := by
  induction news generalizing v with
  | nil => rfl
  | cons node news ih =>
    have hfirst : v.insertNode node = (v.putNode node).putName dirId node := by
      rw [insertNode, hparent node List.mem_cons_self]
      rfl
    simp only [List.foldl_cons]
    rw [ih _ fun n hn => hparent n (List.mem_cons_of_mem _ hn), hfirst, foldl_putNode_putName]

theorem populateEntries_parent (v : VfsManager) (es : List GitTreeEntry) (next : Nat) :
    ∀ n ∈ (populateEntries g v dirId es next).2.1, n.parentId = dirId := by
  induction es generalizing next with
  | nil => exact fun n hn => absurd hn (by simp [populateEntries])
  | cons e es ih =>
    intro n hn
    rw [populateEntries] at hn
    split at hn
    · exact ih next n hn
    · rcases List.mem_cons.mp hn with rfl | hn
      · rfl
      · exact ih (next + 1) n hn

/-- Populating a directory, up to the point where the call goes on or has failed. -/
theorem alone_populate (v : VfsManager) :
    Alone g dirId call (v, .check) ((v.ensureDirPopulated g dirId).2,
      match (v.ensureDirPopulated g dirId).1 with
      | .ok () => .populated
      | .error e => .done (.error e)) := by
  unfold ensureDirPopulated
  cases hlist : v.dirChildren dirId with
  | some ids => exact .last (by simp only [Pc.next, hlist])
  | none =>
    have hcheck : Pc.next g dirId call v .check = some (v, .readDir) := by simp only [Pc.next, hlist]
    refine .step hcheck ?_
    cases hdir : v.nodes dirId with
    | none => exact .last (by simp only [Pc.next, hdir])
    | some node =>
      simp only
      split_ifs with hisDir
      · have hread : Pc.next g dirId call v .readDir =
            some (v, .entries (treeEntries g node.oid) [] []) := by simp only [Pc.next, hdir, if_pos hisDir]
        refine .step hread ?_
        have hloop := alone_entries g dirId call v (treeEntries g node.oid) v.nextInode [] []
        rw [List.nil_append, List.nil_append] at hloop
        refine Relation.ReflTransGen.trans hloop (Alone.step rfl (Alone.step rfl (Alone.last ?_)))
        rw [← foldl_insertNode_eq _ _ (populateEntries_parent v _ _)]
        rfl
      · exact .last (by simp only [Pc.next, hdir, if_neg hisDir])

/-- What the steps of a call come to when nothing else runs is what the call does. -/
theorem alone_whole {v : VfsManager} (hv : v.WellFormed) :
    Alone g dirId call (v, .look) ((call.whole g dirId v).2, .done (call.whole g dirId v).1) := by
  cases call with
  | populate =>
    refine Alone.step rfl (Relation.ReflTransGen.trans (alone_populate v) ?_)
    unfold DirCall.whole
    cases (v.ensureDirPopulated g dirId).1 with
    | error e => exact .refl
    | ok u => exact Alone.last rfl
  | lookup name =>
    unfold DirCall.whole VfsManager.lookup
    by_cases hdot : name = ['.']
    · exact .last (by simp only [Pc.next, if_pos hdot])
    by_cases hdots : name = ['.', '.']
    · simp only [if_neg hdot, if_pos hdots]
      cases hdir : v.nodes dirId with
      | none => exact .last (by simp only [Pc.next, if_neg hdot, if_pos hdots, hdir])
      | some node => exact .last (by simp only [Pc.next, if_neg hdot, if_pos hdots, hdir])
    simp only [if_neg hdot, if_neg hdots]
    cases hlive : v.liveChild dirId name with
    | some id => exact .last (by simp only [Pc.next, if_neg hdot, if_neg hdots, hlive])
    | none =>
      have hlook : Pc.next g dirId (.lookup name) v .look = some (v, .check) := by
        simp only [Pc.next, if_neg hdot, if_neg hdots, hlive]
      refine Alone.step hlook (Relation.ReflTransGen.trans (alone_populate v) ?_)
      obtain ⟨r, w⟩ := v.ensureDirPopulated g dirId
      cases r with
      | error e => exact .refl
      | ok u =>
        simp only
        cases hlive' : w.liveChild dirId name with
        | some id => exact Alone.last (by simp only [Pc.next, hlive'])
        | none => exact Alone.last (by simp only [Pc.next, hlive'])
  | createFile name mode =>
    refine Alone.step rfl (Relation.ReflTransGen.trans (alone_populate v) ?_)
    unfold DirCall.whole VfsManager.createFile
    have hw := hv.ensureDirPopulated (g := g) dirId
    generalize v.ensureDirPopulated g dirId = result at hw ⊢
    obtain ⟨r, w⟩ := result
    cases r with
    | error e => exact .refl
    | ok u =>
      cases hnode : (w.childMap (dirId, name)).bind fun id => (w.nodes id).map fun node => (id, node) with
      | none =>
        have hmake : Pc.next g dirId (.createFile name mode) w .populated = some (w, .make) := by
          cases hmap : w.childMap (dirId, name) with
          | none => simp only [Pc.next, hmap, Option.bind_none]
          | some id =>
            rw [hmap, Option.bind_some, Option.map_eq_none_iff] at hnode
            simp only [Pc.next, hmap, Option.bind_some, hnode, Option.map_none]
        simp only [hnode]
        exact Alone.step hmake (Alone.step rfl (Alone.step rfl (Alone.step rfl (Alone.last rfl))))
      | some found =>
        obtain ⟨id, hmap, hfound⟩ := Option.bind_eq_some_iff.mp hnode
        obtain ⟨node, hid, rfl⟩ := Option.map_eq_some_iff.mp hfound
        have hrevive : Pc.next g dirId (.createFile name mode) w .populated =
            some (w.modifyNode id fun node => { node with isDeleted := false, size := 0 }, .done (.ok id)) := by
          simp only [Pc.next, hmap, Option.bind_some, hid, Option.map_some]
        simp only [hnode]
        rw [Except.map, hw.id_eq id node hid]
        exact Alone.last hrevive
  | mkdir name =>
    refine Alone.step rfl (Relation.ReflTransGen.trans (alone_populate v) ?_)
    unfold DirCall.whole VfsManager.mkdir
    obtain ⟨r, w⟩ := v.ensureDirPopulated g dirId
    cases r with
    | error e => exact .refl
    | ok u =>
      exact Alone.step rfl (Alone.step rfl (Alone.step rfl (Alone.step rfl (Alone.step rfl (Alone.last rfl)))))

end Alone

/-! ## Calls side by side -/

/-- The tables and the calls that run on one directory, each with the place it has got to. -/
structure Traffic where
  vfs : VfsManager
  threads : List (DirCall × Pc)

namespace Traffic

def start (v : VfsManager) (calls : List DirCall) : Traffic := ⟨v, calls.map fun call => (call, .look)⟩

/-- The call of a position takes its next step. -/
def step (g : GitEngine) (dirId : Nat) (c : Traffic) (t : Nat) : Option Traffic :=
  match c.threads[t]? with
  | none => none
  | some (call, pc) =>
    match pc.next g dirId call c.vfs with
    | none => none
    | some (v, pc) => some ⟨v, c.threads.set t (call, pc)⟩

def Finished (c : Traffic) : Prop := ∀ thread ∈ c.threads, ∃ r, thread.2 = .done r

end Traffic

def DirCall.makes : DirCall → Option Str
  | .createFile name _ => some name
  | .mkdir name => some name
  | _ => none

/-- What the calls have left behind. The names that are dots lead out of the tables. -/
structure Kept (dirId : Nat) (c : Traffic) : Prop where
  made : ∀ call name id, (call, Pc.done (.ok id)) ∈ c.threads → call.makes = some name →
    c.vfs.childMap (dirId, name) = some id ∧ ∃ ids, c.vfs.dirChildren dirId = some ids ∧ id ∈ ids
  found : ∀ name id, (DirCall.lookup name, Pc.done (.ok id)) ∈ c.threads → name ≠ ['.'] → name ≠ ['.', '.'] →
    c.vfs.childMap (dirId, name) = some id
  same : ∀ name id id', (DirCall.lookup name, Pc.done (.ok id)) ∈ c.threads →
    (DirCall.lookup name, Pc.done (.ok id')) ∈ c.threads → id = id'

/-- A step that inserts finds nothing that it would take away. -/
def Pc.Clear (dirId : Nat) (v : VfsManager) : Pc → Prop
  | .insertNames _ news => ∀ n ∈ news, v.childMap (dirId, n.name) = none
  | .putName node => v.childMap (dirId, node.name) = none
  | .insertList ids => ∀ id ∈ (v.dirChildren dirId).getD [], id ∈ ids
  | _ => True

instance (dirId : Nat) (v : VfsManager) (pc : Pc) : Decidable (pc.Clear dirId v) := by
  cases pc <;> unfold Pc.Clear <;> infer_instance

def Traffic.Clear (dirId : Nat) (c : Traffic) (t : Nat) : Prop :=
  ∀ thread ∈ c.threads[t]?, thread.2.Clear dirId c.vfs

/-! ## What a step keeps -/

def VfsManager.Listed (dirId : Nat) (v : VfsManager) (id : Nat) : Prop :=
  ∃ ids, v.dirChildren dirId = some ids ∧ id ∈ ids

/-- Nothing of the directory is taken away. -/
structure Grows (dirId : Nat) (v v' : VfsManager) : Prop where
  names : ∀ name id, v.childMap (dirId, name) = some id → v'.childMap (dirId, name) = some id
  list : ∀ ids, v.dirChildren dirId = some ids → ∃ ids', v'.dirChildren dirId = some ids' ∧ ids ⊆ ids'
  parent : (v'.nodes dirId).map VfsNode.parentId = (v.nodes dirId).map VfsNode.parentId
  next : v.nextInode ≤ v'.nextInode

/-- What the place of a call says of the tables. -/
def Pc.Holds (dirId : Nat) (v : VfsManager) (call : DirCall) : Pc → Prop
  | .look | .check | .readDir | .insertList _ => True
  | .entries _ ids news | .alloc _ _ ids news | .insertNodes ids news | .insertNames ids news =>
    ∀ n ∈ news, n.id ∈ ids ∧ n.id ≠ dirId
  | .populated | .make => ∃ ids, v.dirChildren dirId = some ids
  | .putNode node | .putName node =>
    (∃ ids, v.dirChildren dirId = some ids) ∧ node.id ≠ dirId ∧ call.makes = some node.name
  | .putList node | .putEmpty node =>
    node.id ≠ dirId ∧ call.makes = some node.name ∧ v.childMap (dirId, node.name) = some node.id
  | .done (.ok id) =>
    match call with
    | .populate => True
    | .lookup name =>
      if name = ['.'] then id = dirId
      else if name = ['.', '.'] then (v.nodes dirId).map VfsNode.parentId = some id
      else v.childMap (dirId, name) = some id
    | .createFile name _ | .mkdir name => v.childMap (dirId, name) = some id
  | .done (.error _) => True

/-- A call that looks into the tables for its name. -/
def DirCall.Named (call : DirCall) : Prop := ∀ name, call = .lookup name → name ≠ ['.'] ∧ name ≠ ['.', '.']

/-- A call is past its first look and not done. -/
def Pc.Inside : Pc → Prop
  | .look | .done _ => False
  | _ => True

/-- A name of this inode is in `child_map`, and this call still has to put it on the list. -/
def Pc.Pending (id : Nat) : Pc → Prop
  | .insertList ids => id ∈ ids
  | .putList node => node.id = id
  | _ => False

namespace Grows

variable {dirId : Nat} {v v' : VfsManager}

theorem rfl' : Grows dirId v v :=
  ⟨fun _ _ h => h, fun ids h => ⟨ids, h, List.Subset.refl ids⟩, rfl, le_rfl⟩

theorem listed (h : Grows dirId v v') {id : Nat} (hid : v.Listed dirId id) : v'.Listed dirId id := by
  obtain ⟨ids, hids, hmem⟩ := hid
  obtain ⟨ids', hids', hsub⟩ := h.list ids hids
  exact ⟨ids', hids', hsub hmem⟩

/-- What a call may rely on stays true under the steps of the others. -/
theorem holds (h : Grows dirId v v') {call : DirCall} {pc : Pc} (hpc : pc.Holds dirId v call) :
    pc.Holds dirId v' call := by
  have hlist : (∃ ids, v.dirChildren dirId = some ids) → ∃ ids, v'.dirChildren dirId = some ids := by
    rintro ⟨ids, hids⟩
    obtain ⟨ids', hids', -⟩ := h.list ids hids
    exact ⟨ids', hids'⟩
  cases pc with
  | look | check | readDir | insertList ids => trivial
  | entries rest ids news | alloc e rest ids news | insertNodes ids news | insertNames ids news => exact hpc
  | populated | make => exact hlist hpc
  | putNode node | putName node => exact ⟨hlist hpc.1, hpc.2⟩
  | putList node | putEmpty node => exact ⟨hpc.1, hpc.2.1, h.names _ _ hpc.2.2⟩
  | done r =>
    cases r with
    | error e => trivial
    | ok id =>
      cases call with
      | populate => trivial
      | createFile name mode | mkdir name => exact h.names name id hpc
      | lookup name =>
        simp only [Pc.Holds] at hpc ⊢
        split_ifs at hpc ⊢ with hdot hdots
        · exact hpc
        · rw [h.parent, hpc]
        · exact h.names name id hpc

end Grows

section Step

variable {g : GitEngine} {dirId : Nat} {call : DirCall} {v v' : VfsManager}

theorem foldl_putNode_tables (news : List VfsNode) (v : VfsManager) (hne : ∀ n ∈ news, n.id ≠ dirId) :
    (news.foldl VfsManager.putNode v).childMap = v.childMap ∧
      (news.foldl VfsManager.putNode v).dirChildren = v.dirChildren ∧
      (news.foldl VfsManager.putNode v).nextInode = v.nextInode ∧
      (news.foldl VfsManager.putNode v).nodes dirId = v.nodes dirId := by
  induction news generalizing v with
  | nil => exact ⟨rfl, rfl, rfl, rfl⟩
  | cons node news ih =>
    obtain ⟨hmap, hlist, hnext, hnodes⟩ := ih (v.putNode node) fun n hn => hne n (List.mem_cons_of_mem _ hn)
    refine ⟨hmap, hlist, hnext, hnodes.trans ?_⟩
    exact Function.update_of_ne (hne node List.mem_cons_self).symm _ _

theorem foldl_putName_tables (dirId : Nat) (news : List VfsNode) (v : VfsManager) :
    (news.foldl (fun v node => v.putName dirId node) v).nodes = v.nodes ∧
      (news.foldl (fun v node => v.putName dirId node) v).dirChildren = v.dirChildren ∧
      (news.foldl (fun v node => v.putName dirId node) v).nextInode = v.nextInode := by
  induction news generalizing v with
  | nil => exact ⟨rfl, rfl, rfl⟩
  | cons node news ih => exact ih (v.putName dirId node)

/-- A name that the loop inserts has one of the new inodes afterwards, any other has what it had. -/
theorem foldl_putName_childMap (dirId : Nat) (news : List VfsNode) (v : VfsManager) (name : Str) :
    (∃ n ∈ news, n.name = name ∧
      (news.foldl (fun v node => v.putName dirId node) v).childMap (dirId, name) = some n.id) ∨
    ((∀ n ∈ news, n.name ≠ name) ∧
      (news.foldl (fun v node => v.putName dirId node) v).childMap (dirId, name) = v.childMap (dirId, name)) := by
  induction news generalizing v with
  | nil => exact .inr ⟨fun n hn => absurd hn List.not_mem_nil, rfl⟩
  | cons node news ih =>
    rw [List.foldl_cons]
    rcases ih (v.putName dirId node) with ⟨n, hn, hname, hmap⟩ | ⟨hnames, hmap⟩
    · exact .inl ⟨n, List.mem_cons_of_mem _ hn, hname, hmap⟩
    · by_cases hname : node.name = name
      · subst hname
        refine .inl ⟨node, List.mem_cons_self, rfl, hmap.trans ?_⟩
        rw [putName, setChild_childMap, if_pos rfl]
      · refine .inr ⟨?_, hmap.trans ?_⟩
        · rintro n (_ | ⟨_, hn⟩)
          · exact hname
          · exact hnames n hn
        · rw [putName, setChild_childMap, if_neg]
          intro heq
          exact hname (Prod.mk.inj heq).2.symm

theorem newNode_spec {id : Nat} {node : VfsNode} (h : call.newNode dirId id = some node) :
    node.id = id ∧ call.makes = some node.name := by
  cases call with
  | populate | lookup name => cases h
  | createFile name mode | mkdir name =>
    cases h
    exact ⟨rfl, rfl⟩

theorem next_inside {pc pc' : Pc} (hpc : pc.Inside → call.Named) (h : pc.next g dirId call v = some (v', pc'))
    (hin : pc'.Inside) : call.Named := by
  cases pc with
  | look =>
    cases call with
    | populate | createFile name mode | mkdir name =>
      intro name h
      cases h
    | lookup name =>
      simp only [Pc.next] at h
      split_ifs at h with hdot hdots
      · cases h
        exact hin.elim
      · split at h <;>
        · cases h
          exact hin.elim
      · rintro name ⟨⟩
        exact ⟨hdot, hdots⟩
  | done r => cases h
  | _ => exact hpc trivial

/-- A call that makes a name may return its inode once `child_map` has it. -/
theorem done_holds {name : Str} {id : Nat} (hmakes : call.makes = some name)
    (hmap : v.childMap (dirId, name) = some id) : (Pc.done (.ok id)).Holds dirId v call := by
  cases call with
  | populate | lookup name => cases hmakes
  | createFile name' mode | mkdir name' =>
    cases hmakes
    exact hmap

/-- What a step of a call leaves for the others, and what it hands to its own next place. -/
structure Steps (dirId : Nat) (call : DirCall) (v v' : VfsManager) (pc pc' : Pc) : Prop where
  grows : Grows dirId v v'
  holds : pc'.Holds dirId v' call
  names : ∀ name id, v'.childMap (dirId, name) = some id →
    v.childMap (dirId, name) = some id ∨ pc'.Pending id
  listed : ∀ id, pc.Pending id → v'.Listed dirId id

/-- A step that leaves the tables alone. -/
theorem Steps.same {pc pc' : Pc} (hpending : ∀ id, ¬ pc.Pending id) (h : pc'.Holds dirId v call) :
    Steps dirId call v v pc pc' :=
  ⟨.rfl', h, fun _ _ hmap => .inl hmap, fun id hid => absurd hid (hpending id)⟩

theorem next_steps {pc pc' : Pc} (hd : dirId < v.nextInode) (hin : pc.Inside → call.Named)
    (hpc : pc.Holds dirId v call) (hclear : pc.Clear dirId v) (h : pc.next g dirId call v = some (v', pc')) :
    Steps dirId call v v' pc pc' := by
  have hlive (name : Str) (id : Nat) (hl : v.liveChild dirId name = some id) :
      v.childMap (dirId, name) = some id := by
    unfold liveChild at hl
    split at hl
    · rename_i i hmap
      obtain ⟨n, -, rfl⟩ := Option.map_eq_some_iff.mp hl
      exact hmap
    · cases hl
  cases pc with
  | look =>
    have hno : ∀ id, ¬ Pc.look.Pending id := fun _ h => h
    cases call with
    | populate | createFile name mode | mkdir name =>
      cases h
      exact .same hno trivial
    | lookup name =>
      simp only [Pc.next] at h
      split_ifs at h with hdot hdots
      · cases h
        refine .same hno ?_
        simp only [Pc.Holds, if_pos hdot]
      · split at h
        · rename_i node hnode
          cases h
          refine .same hno ?_
          simp only [Pc.Holds, if_neg hdot, if_pos hdots, hnode, Option.map_some]
        · cases h
          exact .same hno trivial
      · split at h
        · rename_i id hl
          cases h
          refine .same hno ?_
          simp only [Pc.Holds, if_neg hdot, if_neg hdots, hlive name id hl]
        · cases h
          exact .same hno trivial
  | check =>
    have hno : ∀ id, ¬ Pc.check.Pending id := fun _ h => h
    simp only [Pc.next] at h
    split at h
    · rename_i ids hids
      cases h
      exact .same hno ⟨ids, hids⟩
    · cases h
      exact .same hno trivial
  | readDir =>
    have hno : ∀ id, ¬ Pc.readDir.Pending id := fun _ h => h
    simp only [Pc.next] at h
    split at h
    · cases h
      exact .same hno trivial
    · split_ifs at h <;> cases h
      · exact .same hno fun n hn => absurd hn List.not_mem_nil
      · exact .same hno trivial
  | entries rest ids news =>
    cases rest with
    | nil =>
      cases h
      exact .same (fun _ h => h) hpc
    | cons e rest =>
      simp only [Pc.next] at h
      split at h
      · cases h
        exact .same (fun _ h => h) fun n hn => ⟨List.mem_append_left _ (hpc n hn).1, (hpc n hn).2⟩
      · cases h
        exact .same (fun _ h => h) hpc
  | alloc e rest ids news =>
    cases h
    refine ⟨⟨fun _ _ h => h, fun ids h => ⟨ids, h, List.Subset.refl ids⟩, rfl, Nat.le_succ _⟩, ?_,
      fun _ _ h => .inl h, fun _ h => h.elim⟩
    intro n hn
    rcases List.mem_append.mp hn with hn | hn
    · exact ⟨List.mem_append_left _ (hpc n hn).1, (hpc n hn).2⟩
    · rw [List.mem_singleton.mp hn]
      exact ⟨List.mem_append_right _ (List.mem_singleton_self _), hd.ne'⟩
  | insertNodes ids news =>
    cases h
    obtain ⟨hmap, hlist, hnext, hnodes⟩ := foldl_putNode_tables news v fun n hn => (hpc n hn).2
    refine ⟨⟨fun _ _ h => hmap ▸ h, fun ids h => ⟨ids, hlist ▸ h, List.Subset.refl ids⟩, by rw [hnodes],
      hnext.ge⟩, hpc, fun _ _ h => .inl (hmap ▸ h), fun _ h => h.elim⟩
  | insertNames ids news =>
    cases h
    obtain ⟨hnodes, hlist, hnext⟩ := foldl_putName_tables dirId news v
    refine ⟨⟨?_, fun ids h => ⟨ids, hlist ▸ h, List.Subset.refl ids⟩, by rw [hnodes], hnext.ge⟩, trivial, ?_,
      fun _ h => h.elim⟩
    · intro name id hname
      rcases foldl_putName_childMap dirId news v name with ⟨n, hn, hnn, -⟩ | ⟨-, hmap⟩
      · rw [← hnn, hclear n hn] at hname
        cases hname
      · exact hmap.trans hname
    · intro name id hname
      rcases foldl_putName_childMap dirId news v name with ⟨n, hn, -, hmap⟩ | ⟨-, hmap⟩
      · right
        rw [hmap, Option.some.injEq] at hname
        exact hname ▸ (hpc n hn).1
      · exact .inl (hmap ▸ hname)
  | insertList ids =>
    cases h
    have hids : (v.setDirChildren dirId ids).dirChildren dirId = some ids := by
      rw [setDirChildren_dirChildren, if_pos rfl]
    refine ⟨⟨fun _ _ h => h, ?_, rfl, le_rfl⟩, ⟨ids, hids⟩, fun _ _ h => .inl h, fun id hid => ⟨ids, hids, hid⟩⟩
    intro old hold
    refine ⟨ids, hids, fun id hid => hclear id ?_⟩
    rw [hold]
    exact hid
  | populated =>
    have hno : ∀ id, ¬ Pc.populated.Pending id := fun _ h => h
    cases call with
    | populate =>
      cases h
      exact .same hno trivial
    | mkdir name =>
      cases h
      exact .same hno hpc
    | lookup name =>
      simp only [Pc.next] at h
      split at h
      · rename_i id hl
        cases h
        refine .same hno ?_
        obtain ⟨hdot, hdots⟩ := hin trivial name rfl
        simp only [Pc.Holds, if_neg hdot, if_neg hdots, hlive name id hl]
      · cases h
        exact .same hno trivial
    | createFile name mode =>
      simp only [Pc.next] at h
      split at h
      · rename_i id hfound
        cases h
        obtain ⟨i, hmap, hi⟩ := Option.bind_eq_some_iff.mp hfound
        obtain ⟨node, hnode, rfl⟩ := Option.map_eq_some_iff.mp hi
        refine ⟨⟨fun _ _ h => h, fun ids h => ⟨ids, h, List.Subset.refl ids⟩, ?_, le_rfl⟩, hmap,
          fun _ _ h => .inl h, fun _ h => h.elim⟩
        rw [modifyNode_nodes]
        split_ifs with hi
        · rw [← hi, Option.map_map]
          rfl
        · rfl
      · cases h
        exact .same hno hpc
  | make =>
    simp only [Pc.next] at h
    split at h
    · rename_i node hnode
      cases h
      obtain ⟨hid, hmakes⟩ := newNode_spec hnode
      exact ⟨⟨fun _ _ h => h, fun ids h => ⟨ids, h, List.Subset.refl ids⟩, rfl, Nat.le_succ _⟩,
        ⟨hpc, hid ▸ hd.ne', hmakes⟩, fun _ _ h => .inl h, fun _ h => h.elim⟩
    · cases h
  | putNode node =>
    cases h
    refine ⟨⟨fun _ _ h => h, fun ids h => ⟨ids, h, List.Subset.refl ids⟩, ?_, le_rfl⟩, hpc, fun _ _ h => .inl h,
      fun _ h => h.elim⟩
    exact congrArg _ (Function.update_of_ne hpc.2.1.symm _ _)
  | putName node =>
    cases h
    have hmap (name : Str) : (v.putName dirId node).childMap (dirId, name) =
        if name = node.name then some node.id else v.childMap (dirId, name) := by
      rw [VfsManager.putName, setChild_childMap]
      simp only [Prod.mk.injEq, true_and]
    refine ⟨⟨?_, fun ids h => ⟨ids, h, List.Subset.refl ids⟩, rfl, le_rfl⟩, ⟨hpc.2.1, hpc.2.2, ?_⟩, ?_,
      fun _ h => h.elim⟩
    · intro name id hname
      rw [hmap, if_neg, hname]
      rintro rfl
      rw [hclear] at hname
      cases hname
    · rw [hmap, if_pos rfl]
    · intro name id hname
      rw [hmap] at hname
      split_ifs at hname
      · exact .inr (Option.some.inj hname)
      · exact .inl hname
  | putList node =>
    obtain ⟨hid, hmakes, hmap⟩ := hpc
    cases h
    have hlist : (v.pushChild dirId node.id).dirChildren dirId =
        some ((v.dirChildren dirId).getD [] ++ [node.id]) := by rw [pushChild_dirChildren, if_pos rfl]
    refine ⟨⟨fun _ _ h => h, ?_, rfl, le_rfl⟩, ?_, fun _ _ h => .inl h, ?_⟩
    · intro ids hids
      refine ⟨_, hlist, ?_⟩
      rw [hids]
      exact List.subset_append_left ids _
    · split_ifs
      · exact ⟨hid, hmakes, hmap⟩
      · exact done_holds hmakes hmap
    · rintro id rfl
      exact ⟨_, hlist, List.mem_append_right _ (List.mem_singleton_self _)⟩
  | putEmpty node =>
    obtain ⟨hid, hmakes, hmap⟩ := hpc
    cases h
    refine ⟨⟨fun _ _ h => h, ?_, rfl, le_rfl⟩, done_holds hmakes hmap, fun _ _ h => .inl h, fun _ h => h.elim⟩
    intro ids hids
    refine ⟨ids, ?_, List.Subset.refl ids⟩
    rw [setDirChildren_dirChildren, if_neg hid.symm, hids]
  | done r => cases h

end Step

/-! ## Every order of the steps -/

namespace Traffic

variable {g : GitEngine} {dirId : Nat}

/-- The invariant of all the calls together. -/
structure Sound (dirId : Nat) (c : Traffic) : Prop where
  fresh : dirId < c.vfs.nextInode
  inside : ∀ thread ∈ c.threads, thread.2.Inside → thread.1.Named
  holds : ∀ thread ∈ c.threads, thread.2.Holds dirId c.vfs thread.1
  listed : ∀ name id, c.vfs.childMap (dirId, name) = some id →
    c.vfs.Listed dirId id ∨ ∃ thread ∈ c.threads, thread.2.Pending id

theorem start_sound {v : VfsManager} (hv : v.WellFormed) {dir : VfsNode} (hdir : v.nodes dirId = some dir)
    (calls : List DirCall) : (start v calls).Sound dirId := by
  refine ⟨hv.fresh dirId dir hdir, ?_, ?_, ?_⟩
  · intro thread hthread hin
    obtain ⟨call, -, rfl⟩ := List.mem_map.mp hthread
    exact hin.elim
  · intro thread hthread
    obtain ⟨call, -, rfl⟩ := List.mem_map.mp hthread
    trivial
  · intro name id hname
    exact .inl (hv.child dirId name id hname).2

theorem step_eq {c c' : Traffic} {t : Nat} (h : step g dirId c t = some c') :
    ∃ call pc v pc', c.threads[t]? = some (call, pc) ∧ pc.next g dirId call c.vfs = some (v, pc') ∧
      c' = ⟨v, c.threads.set t (call, pc')⟩ := by
  unfold step at h
  split at h
  · cases h
  · rename_i call pc hthread
    split at h
    · cases h
    · rename_i v pc' hnext
      exact ⟨call, pc, v, pc', hthread, hnext, (Option.some.inj h).symm⟩

theorem step_sound {c c' : Traffic} {t : Nat} (hc : c.Sound dirId) (hclear : c.Clear dirId t)
    (h : step g dirId c t = some c') : c'.Sound dirId := by
  obtain ⟨call, pc, v, pc', hthread, hnext, rfl⟩ := step_eq h
  have hmem : (call, pc) ∈ c.threads := List.mem_of_getElem? hthread
  have hself : (call, pc') ∈ c.threads.set t (call, pc') :=
    List.mem_set (List.getElem?_eq_some_iff.mp hthread).1 _
  have hin := hc.inside _ hmem
  have hsteps := next_steps hc.fresh hin (hc.holds _ hmem) (hclear _ hthread) hnext
  refine ⟨Nat.lt_of_lt_of_le hc.fresh hsteps.grows.next, ?_, ?_, ?_⟩
  · intro thread hth
    rcases List.mem_or_eq_of_mem_set hth with hth | rfl
    · exact hc.inside thread hth
    · exact next_inside hin hnext
  · intro thread hth
    rcases List.mem_or_eq_of_mem_set hth with hth | rfl
    · exact hsteps.grows.holds (hc.holds thread hth)
    · exact hsteps.holds
  · intro name id hname
    rcases hsteps.names name id hname with hold | hpending
    · rcases hc.listed name id hold with hl | ⟨thread, hth, hpending⟩
      · exact .inl (hsteps.grows.listed hl)
      · -- the call that has still to list the inode is another one, or it has just done so
        obtain ⟨s, hs⟩ := List.mem_iff_getElem?.mp hth
        by_cases hst : t = s
        · subst hst
          rw [hthread, Option.some.injEq] at hs
          subst hs
          exact .inl (hsteps.listed id hpending)
        · refine .inr ⟨thread, List.mem_of_getElem? (i := s) ?_, hpending⟩
          rw [List.getElem?_set_ne hst, hs]
    · exact .inr ⟨_, hself, hpending⟩

theorem kept_of_sound {c : Traffic} (hc : c.Sound dirId) (hdone : c.Finished) : Kept dirId c := by
  have hlist (name : Str) (id : Nat) (hname : c.vfs.childMap (dirId, name) = some id) :
      c.vfs.Listed dirId id := by
    rcases hc.listed name id hname with hl | ⟨thread, hin, hpending⟩
    · exact hl
    · obtain ⟨r, hr⟩ := hdone thread hin
      rw [hr] at hpending
      exact hpending.elim
  refine ⟨?_, ?_, ?_⟩
  · intro call name id hin hmakes
    have hholds := hc.holds _ hin
    have hname : c.vfs.childMap (dirId, name) = some id := by
      cases call with
      | populate | lookup name' => cases hmakes
      | createFile name' mode | mkdir name' =>
        cases hmakes
        exact hholds
    exact ⟨hname, hlist name id hname⟩
  · intro name id hin hdot hdots
    have hholds := hc.holds _ hin
    simp only [Pc.Holds, if_neg hdot, if_neg hdots] at hholds
    exact hholds
  · intro name id id' hin hin'
    have hholds := hc.holds _ hin
    have hholds' := hc.holds _ hin'
    simp only [Pc.Holds] at hholds hholds'
    split_ifs at hholds hholds'
    · rw [hholds, hholds']
    · rw [hholds, Option.some.injEq] at hholds'
      exact hholds'
    · rw [hholds, Option.some.injEq] at hholds'
      exact hholds'

/-- Calls on one directory that no step of takes anything away lose nothing, in whatever order they run. -/
theorem concurrent_kept (g : GitEngine) (v : VfsManager) (hv : v.WellFormed) (dirId : Nat) (dir : VfsNode)
    (hdir : v.nodes dirId = some dir) (calls : List DirCall) (order : List Nat) (c : Traffic)
    (hrun : Run.run (step g dirId) (start v calls) order = some c) (hdone : c.Finished)
    (hclear : Run.Meets (step g dirId) (Clear dirId) (start v calls) order) : Kept dirId c := by
  have hsound := Run.invariant (I := Sound dirId) (fun s t s' hs hok hstep => step_sound hs hok hstep) hclear hrun
    (start_sound hv hdir calls)
  exact kept_of_sound hsound hdone

/-- Two calls populate the directory by turns, then one of them creates a file in it. -/
def sharedOrder : List Nat :=
  List.replicate 10 0 ++ List.replicate 8 1 ++ [0, 0] ++ List.replicate 6 1

def sharedStart : Traffic := start (.new ['r']) [.lookup ['f'], .createFile ['h'] .regularFile]

def clearBool (dirId : Nat) (c : Traffic) (t : Nat) : Bool :=
  c.threads[t]?.all fun thread => decide (thread.2.Clear dirId c.vfs)

theorem clear_of_clearBool {c : Traffic} {t : Nat} (h : clearBool dirId c t = true) : c.Clear dirId t := by
  intro thread hthread
  unfold clearBool at h
  rw [Option.mem_def.mp hthread, Option.all_some, decide_eq_true_eq] at h
  exact h

/-- What is left to see of the calls and of one name. -/
def outcome (dirId : Nat) (name : Str) (c : Traffic) : List (DirCall × Pc) × Option Nat × Option (List Nat) :=
  (c.threads, c.vfs.childMap (dirId, name), c.vfs.dirChildren dirId)

def isDone : Pc → Bool
  | .done _ => true
  | _ => false

theorem finished_of_eq {c : Traffic} {threads : List (DirCall × Pc)} (h : c.threads = threads)
    (hdone : (threads.all fun thread => isDone thread.2) = true) : c.Finished := by
  intro thread hthread
  have hpc := List.all_eq_true.mp hdone thread (h ▸ hthread)
  cases hr : thread.2 with
  | done r => exact ⟨r, rfl⟩
  | _ =>
    rw [hr] at hpc
    cases hpc

theorem concurrent_kept_shared :
    ∃ c, Run.run (step smallBase 1) sharedStart sharedOrder = some c ∧ Kept 1 c := by
  have hout : (Run.run (step smallBase 1) sharedStart sharedOrder).map (outcome 1 ['h']) =
      some ([(.lookup ['f'], .done (.ok 2)), (.createFile ['h'] .regularFile, .done (.ok 4))],
        some 4, some [2, 3, 4]) := by decide
  obtain ⟨c, hrun, hc⟩ := Option.map_eq_some_iff.mp hout
  have hthreads : c.threads = [(.lookup ['f'], .done (.ok 2)),
      (.createFile ['h'] .regularFile, .done (.ok 4))] := congrArg Prod.fst hc
  have hdone : c.Finished := finished_of_eq hthreads (by decide)
  have hclear : Run.Meets (step smallBase 1) (Clear 1) sharedStart sharedOrder :=
    Run.meets_of_check (fun _ _ => clear_of_clearBool) (show Run.check _ (clearBool 1) _ _ = true by decide)
  exact ⟨c, hrun, concurrent_kept smallBase _ (.new ['r']) 1 _ rfl _ _ c hrun hdone hclear⟩

/-- The one that populates last takes a file off the list that was created meanwhile, or gives a name
another inode than the one that was returned for it. -/
theorem concurrent_lost :
    (∃ order c, Run.run (step smallBase 1) (start (.new ['r']) [.createFile ['h'] .regularFile, .populate]) order =
        some c ∧ c.Finished ∧ (.createFile ['h'] .regularFile, .done (.ok 4)) ∈ c.threads ∧
        ¬ c.vfs.Listed 1 4) ∧
    ∃ order c, Run.run (step smallBase 1) (start (.new ['r']) [.lookup ['f'], .lookup ['f']]) order = some c ∧
      c.Finished ∧ (.lookup ['f'], .done (.ok 2)) ∈ c.threads ∧ (.lookup ['f'], .done (.ok 4)) ∈ c.threads ∧
      c.vfs.childMap (1, ['f']) = some 4 := by
  have hlost : (Run.run (step smallBase 1) (start (.new ['r']) [.createFile ['h'] .regularFile, .populate])
      (List.replicate 10 0 ++ List.replicate 8 1 ++ List.replicate 6 0 ++ [1, 1])).map (outcome 1 ['h']) =
      some ([(.createFile ['h'] .regularFile, .done (.ok 4)), (.populate, .done (.ok 1))],
        some 4, some [2, 3]) := by decide
  have htwice : (Run.run (step smallBase 1) (start (.new ['r']) [.lookup ['f'], .lookup ['f']])
      (List.replicate 8 0 ++ List.replicate 8 1 ++ List.replicate 4 0 ++ List.replicate 4 1)).map
        (outcome 1 ['f']) =
      some ([(.lookup ['f'], .done (.ok 2)), (.lookup ['f'], .done (.ok 4))], some 4, some [4, 5]) := by decide
  constructor
  · obtain ⟨c, hrun, hc⟩ := Option.map_eq_some_iff.mp hlost
    have hthreads := congrArg Prod.fst hc
    have hids : c.vfs.dirChildren 1 = some [2, 3] := congrArg (fun x => x.2.2) hc
    simp only [outcome] at hthreads
    refine ⟨_, c, hrun, ?_, ?_, ?_⟩
    · exact finished_of_eq hthreads (by decide)
    · rw [hthreads]
      exact List.mem_cons_self
    · rintro ⟨ids, hids', hmem⟩
      rw [hids, Option.some.injEq] at hids'
      subst hids'
      simp at hmem
  · obtain ⟨c, hrun, hc⟩ := Option.map_eq_some_iff.mp htwice
    have hthreads := congrArg Prod.fst hc
    simp only [outcome] at hthreads
    refine ⟨_, c, hrun, finished_of_eq hthreads (by decide), ?_, ?_, congrArg (fun x => x.2.1) hc⟩
    · rw [hthreads]
      exact List.mem_cons_self
    · rw [hthreads]
      exact List.mem_cons_of_mem _ List.mem_cons_self

end Traffic

end GitNfs
