import GitNfs.Vfs.Consistent
import GitNfs.Vfs.Renumber

/-! # Asking early

Calls that only look at directories make no difference to the calls after them but for the numbers that new
inodes get.
-/

namespace GitNfs

/-- What a call answers. -/
inductive Reply
  | inode (id : Nat)
  | nodes (ns : List VfsNode)
  | node (n : VfsNode)
  | done
  | place (dirId : Nat) (basename : Str)
  deriving DecidableEq

inductive Reply.Twin (R : Nat → Nat → Prop) : Reply → Reply → Prop
  | inode {i j : Nat} (h : R i j) : Twin R (.inode i) (.inode j)
  | nodes {ns ms : List VfsNode} (h : List.Forall₂ (VfsNode.Twin R) ns ms) : Twin R (.nodes ns) (.nodes ms)
  | node {n m : VfsNode} (h : n.Twin R m) : Twin R (.node n) (.node m)
  | done : Twin R .done .done
  | place {i j : Nat} (h : R i j) (basename : Str) : Twin R (.place i basename) (.place j basename)

namespace VfsCall

def answer (g : GitEngine) (v : VfsManager) : VfsCall → Except Error Reply
  | lookup dirId name => (v.lookup g dirId name).1.map .inode
  | listDir dirId => (v.listDir g dirId).1.map .nodes
  | createFile dirId name mode => (v.createFile g dirId name mode).1.map .node
  | mkdir dirId name => (v.mkdir g dirId name).1.map .node
  | remove dirId name => (v.remove g dirId name).1.map .node
  | rename fromDirId fromName toDirId toName => (v.rename g fromDirId fromName toDirId toName).1.map fun _ => .done
  | ensureParentDirs path => (v.ensureParentDirs g path).1.map fun r => .place r.1 r.2

def renumber (f : Nat → Nat) : VfsCall → VfsCall
  | lookup dirId name => lookup (f dirId) name
  | listDir dirId => listDir (f dirId)
  | createFile dirId name mode => createFile (f dirId) name mode
  | mkdir dirId name => mkdir (f dirId) name
  | remove dirId name => remove (f dirId) name
  | rename fromDirId fromName toDirId toName => rename (f fromDirId) fromName (f toDirId) toName
  | ensureParentDirs path => ensureParentDirs path

end VfsCall

/-- A call and its result on either server: both succeed with the same but for the numbers, or both fail
with errors of one kind. A number that names nothing answers for itself when it is asked for its dot. -/
inductive Alike (R : Nat → Nat → Prop) : VfsCall × Except Error Reply → VfsCall × Except Error Reply → Prop
  | ok {call call' : VfsCall} {a b : Reply} (h : a.Twin R b) : Alike R (call, .ok a) (call', .ok b)
  | error {call call' : VfsCall} {e e' : Error} (h : e.Twin e') : Alike R (call, .error e) (call', .error e')
  | echo (i j : Nat) :
    Alike R (.lookup i ['.'], .ok (.inode i)) (.lookup j ['.'], .ok (.inode j))

section

variable {R R' : Nat → Nat → Prop}

theorem Reply.Twin.mono {a b : Reply} (h : a.Twin R b) (hR : ∀ i j, R i j → R' i j) : a.Twin R' b := by
  cases h with
  | inode h => exact .inode (hR _ _ h)
  | nodes h => exact .nodes (h.imp fun _ _ h => h.mono hR)
  | node h => exact .node (h.mono hR)
  | done => exact .done
  | place h basename => exact .place (hR _ _ h) basename

theorem Alike.mono {a b : VfsCall × Except Error Reply} (h : Alike R a b) (hR : ∀ i j, R i j → R' i j) :
    Alike R' a b := by
  cases h with
  | ok h => exact .ok (h.mono hR)
  | error h => exact .error h
  | echo i j => exact .echo i j

end

namespace VfsManager

section

variable {g : GitEngine} {R R' : Nat → Nat → Prop} {v w v' w' : VfsManager} {d e i j : Nat}

/-- What an operation comes to on two servers. -/
inductive Both {α : Type} (g : GitEngine) (R : Nat → Nat → Prop) (T : (Nat → Nat → Prop) → α → α → Prop) :
    Except Error α × VfsManager → Except Error α × VfsManager → Prop
  | ok {R' : Nat → Nat → Prop} {x y : α} {v w : VfsManager} (hR : ∀ i j, R i j → R' i j) (hsim : Sim g R' v w)
    (h : T R' x y) : Both g R T (.ok x, v) (.ok y, w)
  | error {R' : Nat → Nat → Prop} {e e' : Error} {v w : VfsManager} (hR : ∀ i j, R i j → R' i j)
    (hsim : Sim g R' v w) (h : e.Twin e') : Both g R T (.error e, v) (.error e', w)

theorem Both.sim {α : Type} {T : (Nat → Nat → Prop) → α → α → Prop} {a b : Except Error α × VfsManager}
    (h : Both g R T a b) : ∃ R', (∀ i j, R i j → R' i j) ∧ Sim g R' a.2 b.2 := by
  cases h with
  | ok hR hsim _ => exact ⟨_, hR, hsim⟩
  | error hR hsim _ => exact ⟨_, hR, hsim⟩

theorem Both.mono {α : Type} {T : (Nat → Nat → Prop) → α → α → Prop} {a b : Except Error α × VfsManager}
    (h : Both g R' T a b) (hR : ∀ i j, R i j → R' i j) : Both g R T a b := by
  cases h with
  | ok hR' hsim h => exact .ok (fun i j hij => hR' i j (hR i j hij)) hsim h
  | error hR' hsim h => exact .error (fun i j hij => hR' i j (hR i j hij)) hsim h

/-! ## Looking -/

theorem Tables.getNode (h : Tables g R v w) (hij : R i j) :
    Option.Rel (VfsNode.Twin R) (v.getNode i) (w.getNode j) := by
  obtain ⟨n, m, hn, hm, htwin⟩ := h.node i j hij
  unfold VfsManager.getNode
  rw [hn, hm]
  simp only [htwin.isDeleted]
  split_ifs
  · exact .none
  · exact .some htwin

theorem Tables.liveChild (h : Tables g R v w) (hopen : Open R v w d e) (name : Str) :
    Option.Rel R (v.liveChild d name) (w.liveChild e name) := by
  obtain ⟨ids, hids⟩ := hopen.left
  have hname := (h.opened d e ids hopen.same hids).2 name
  unfold VfsManager.liveChild
  generalize v.childMap (d, name) = r at hname ⊢
  generalize w.childMap (e, name) = r' at hname ⊢
  cases hname with
  | none => exact .none
  | @some i j hij =>
    have hnode := h.getNode hij
    simp only
    generalize v.getNode i = a at hnode ⊢
    generalize w.getNode j = b at hnode ⊢
    cases hnode with
    | none => exact .none
    | some _ => exact .some hij

/-- The first look into `child_map` may be left out. -/
theorem lookup_eq (hv : v.WellFormed) {name : Str} (hdot : name ≠ ['.']) (hdots : name ≠ ['.', '.']) :
    v.lookup g d name =
      match v.ensureDirPopulated g d with
      | (.error e, v) => (.error e, v)
      | (.ok (), v) =>
        match v.liveChild d name with
        | some id => (.ok id, v)
        | none => (.error (.childNotFound name d), v) := by
  unfold lookup
  rw [if_neg hdot, if_neg hdots]
  cases hlive : v.liveChild d name with
  | none => rfl
  | some id =>
    obtain ⟨-, ids, hids, -⟩ := hv.child d name id (liveChild_eq_some.mp hlive).1
    rw [ensureDirPopulated_listed hids]
    simp only [hlive]

theorem Sim.lookup (h : Sim g R v w) (hde : Arg R v w d e) {name : Str} (hname : R d e ∨ name ≠ ['.']) :
    Both g R (fun R i j => R i j) (v.lookup g d name) (w.lookup g e name) := by
  by_cases hdot : name = ['.']
  · have hsame := hname.resolve_right (not_not.mpr hdot)
    unfold VfsManager.lookup
    rw [if_pos hdot, if_pos hdot]
    exact .ok (fun _ _ h => h) h hsame
  by_cases hdots : name = ['.', '.']
  · unfold VfsManager.lookup
    rw [if_neg hdot, if_neg hdot, if_pos hdots, if_pos hdots]
    rcases hde with hde | ⟨hd, he⟩
    · obtain ⟨n, m, hn, hm, htwin⟩ := h.tables.node d e hde
      rw [hn, hm]
      exact .ok (fun _ _ h => h) h htwin.parent
    · rw [hd, he]
      exact .error (fun _ _ h => h) h (.dirNotFound d e)
  rw [lookup_eq h.left hdot hdots, lookup_eq h.right hdot hdots]
  obtain ⟨R', v', w', hR, hsim, hopen, hv, hw⟩ | ⟨err, err', htwin, hv, hw⟩ := h.ensure hde
  · rw [hv, hw]
    have hchild := hsim.tables.liveChild hopen name
    simp only
    generalize v'.liveChild d name = r at hchild ⊢
    generalize w'.liveChild e name = r' at hchild ⊢
    cases hchild with
    | none => exact .error hR hsim (.childNotFound name d e)
    | some hij => exact .ok hR hsim hij
  · rw [hv, hw]
    exact .error (fun _ _ h => h) h htwin

theorem filterMap_getNode (h : Tables g R v w) {ids ids' : List Nat} (hall : List.Forall₂ R ids ids') :
    List.Forall₂ (VfsNode.Twin R) (ids.filterMap v.getNode) (ids'.filterMap w.getNode) := by
  induction hall with
  | nil => exact .nil
  | @cons i j is js hij _ ih =>
    have hnode := h.getNode hij
    rw [List.filterMap_cons, List.filterMap_cons]
    generalize v.getNode i = a at hnode ⊢
    generalize w.getNode j = b at hnode ⊢
    cases hnode with
    | none => exact ih
    | some htwin => exact .cons htwin ih

theorem Sim.listDir (h : Sim g R v w) (hde : Arg R v w d e) :
    Both g R (fun R => List.Forall₂ (VfsNode.Twin R)) (v.listDir g d) (w.listDir g e) := by
  unfold VfsManager.listDir
  obtain ⟨R', v', w', hR, hsim, hopen, hv, hw⟩ | ⟨err, err', htwin, hv, hw⟩ := h.ensure hde
  · rw [hv, hw]
    obtain ⟨ids, hids⟩ := hopen.left
    obtain ⟨⟨ids', hids', hall⟩, -⟩ := hsim.tables.opened d e ids hopen.same hids
    refine .ok hR hsim ?_
    rw [hids, hids']
    exact filterMap_getNode hsim.tables hall
  · rw [hv, hw]
    exact .error (fun _ _ h => h) h htwin

/-! ## Changing -/

theorem Open.pushChild (h : Open R v w d e) : Open R (v.pushChild d i) (w.pushChild e j) d e := by
  refine ⟨h.same, ?_, ?_⟩
  · exact ⟨_, by rw [pushChild_dirChildren, if_pos rfl]⟩
  · exact ⟨_, by rw [pushChild_dirChildren, if_pos rfl]⟩

/-- Both servers make a node in a directory. -/
theorem Sim.add (h : Sim g R v w) (hopen : Open R v w d e) {n m : VfsNode} (hid : n.id = v.nextInode)
    (hid' : m.id = w.nextInode) (hd : n.parentId = d) (he : m.parentId = e)
    (hrest : { m with id := n.id, parentId := n.parentId } = n) :
    ∃ R', (∀ i j, R i j → R' i j) ∧ n.Twin R' m ∧ Tables g R' (v.addNode n) (w.addNode m) := by
  obtain ⟨R', hR, hnew, hgrow⟩ := h.grow
  have htwin : n.Twin R' m := by
    refine ⟨?_, ?_, hrest⟩
    · rw [hid, hid']
      exact hnew
    · rw [hd, he]
      exact hR _ _ hopen.same
  have hopen' : Open R' { v with nodes := Function.update v.nodes n.id (some n), nextInode := v.nextInode + 1 }
      { w with nodes := Function.update w.nodes m.id (some m), nextInode := w.nextInode + 1 } d e :=
    ⟨hR _ _ hopen.same, hopen.left, hopen.right⟩
  have hnamed := (hgrow n m hid htwin).setChild hopen' n.name (.some htwin.id)
  refine ⟨R', hR, htwin, ?_⟩
  have hpushed := hnamed.pushChild ⟨hopen'.same, hopen'.left, hopen'.right⟩ htwin.id
  unfold addNode insertNode
  rw [hd, he, htwin.name]
  exact hpushed

/-- Nothing is named below a node that was just made. -/
theorem addNode_unnamed (hv : v.WellFormed) (hd : ∃ ids, v.dirChildren d = some ids) {n : VfsNode}
    (hid : n.id = v.nextInode) (hparent : n.parentId = d) (name : Str) :
    (v.addNode n).childMap (n.id, name) = none := by
  obtain ⟨ids, hids⟩ := hd
  obtain ⟨-, ⟨p, hp, -⟩, -⟩ := hv.listed d ids hids
  have hlt := hv.fresh d p hp
  unfold addNode
  rw [pushChild_childMap, insertNode_childMap, if_neg]
  · rw [hid]
    exact hv.unmapped (hv.unlisted le_rfl) name
  · intro heq
    have := (Prod.mk.inj heq).1
    omega

theorem Sim.createFile (h : Sim g R v w) (hde : Arg R v w d e) (name : Str) (mode : TreeEntryMode) :
    Both g R VfsNode.Twin (v.createFile g d name mode) (w.createFile g e name mode) := by
  have hwv := h.left.createFile (g := g) d name mode
  have hww := h.right.createFile (g := g) e name mode
  unfold VfsManager.createFile at hwv hww ⊢
  obtain ⟨R', v', w', hR, hsim, hopen, hv, hw⟩ | ⟨err, err', htwin, hv, hw⟩ := h.ensure hde
  · rw [hv] at hwv ⊢
    rw [hw] at hww ⊢
    obtain ⟨ids, hids⟩ := hopen.left
    have hname := (hsim.tables.opened d e ids hopen.same hids).2 name
    simp only at hwv hww ⊢
    generalize v'.childMap (d, name) = r at hname hwv ⊢
    generalize w'.childMap (e, name) = r' at hname hww ⊢
    cases hname with
    | none =>
      simp only [Option.bind_none] at hwv hww ⊢
      obtain ⟨R'', hR', htwin, htables⟩ := hsim.add hopen (n := ⟨v'.nextInode, d, name, [], mode, false, 0, false⟩)
        (m := ⟨w'.nextInode, e, name, [], mode, false, 0, false⟩) rfl rfl rfl rfl rfl
      exact .ok (fun i j hij => hR' i j (hR i j hij)) ⟨hwv, hww, htables⟩ htwin
    | @some i j hij =>
      obtain ⟨n, m, hn, hm, htwin⟩ := hsim.tables.node i j hij
      simp only [Option.bind_some, hn, hm, Option.map_some] at hwv hww ⊢
      have hrevive {n m : VfsNode} (h : n.Twin R' m) : VfsNode.Twin R' { n with isDeleted := false, size := 0 }
          { m with isDeleted := false, size := 0 } := by
        refine ⟨h.id, h.parent, ?_⟩
        rw [← h.rest]
      refine .ok hR ⟨hwv, hww, ?_⟩ (hrevive htwin)
      exact hsim.tables.modify hij fun n m _ _ h => ⟨hrevive h, rfl⟩
  · rw [hv, hw]
    exact .error (fun _ _ h => h) h htwin

theorem Sim.mkdir (h : Sim g R v w) (hde : Arg R v w d e) (name : Str) :
    Both g R VfsNode.Twin (v.mkdir g d name) (w.mkdir g e name) := by
  have hwv := h.left.mkdir (g := g) d name
  have hww := h.right.mkdir (g := g) e name
  unfold VfsManager.mkdir at hwv hww ⊢
  obtain ⟨R', v', w', hR, hsim, hopen, hv, hw⟩ | ⟨err, err', htwin, hv, hw⟩ := h.ensure hde
  · rw [hv] at hwv ⊢
    rw [hw] at hww ⊢
    simp only at hwv hww ⊢
    obtain ⟨R'', hR', htwin, htables⟩ := hsim.add hopen (n := ⟨v'.nextInode, d, name, [], .directory, true, 4096, false⟩)
      (m := ⟨w'.nextInode, e, name, [], .directory, true, 4096, false⟩) rfl rfl rfl rfl rfl
    refine .ok (fun i j hij => hR' i j (hR i j hij)) ⟨hwv, hww, ?_⟩ htwin
    refine htables.setList htwin.id .nil fun name' => ?_
    rw [addNode_unnamed hsim.left hopen.left rfl rfl, addNode_unnamed hsim.right hopen.right rfl rfl]
    exact .none
  · rw [hv, hw]
    exact .error (fun _ _ h => h) h htwin

theorem Sim.remove (h : Sim g R v w) (hde : Arg R v w d e) (name : Str) :
    Both g R VfsNode.Twin (v.remove g d name) (w.remove g e name) := by
  have hwv := h.left.remove (g := g) d name
  have hww := h.right.remove (g := g) e name
  unfold VfsManager.remove at hwv hww ⊢
  obtain ⟨R', v', w', hR, hsim, hopen, hv, hw⟩ | ⟨err, err', htwin, hv, hw⟩ := h.ensure hde
  · rw [hv] at hwv ⊢
    rw [hw] at hww ⊢
    obtain ⟨ids, hids⟩ := hopen.left
    have hname := (hsim.tables.opened d e ids hopen.same hids).2 name
    simp only at hwv hww ⊢
    generalize v'.childMap (d, name) = r at hname hwv ⊢
    generalize w'.childMap (e, name) = r' at hname hww ⊢
    cases hname with
    | none => exact .error hR hsim (.childNotFound name d e)
    | @some i j hij =>
      obtain ⟨n, m, hn, hm, htwin⟩ := hsim.tables.node i j hij
      simp only [hn, hm] at hwv hww ⊢
      have hkill {n m : VfsNode} (h : n.Twin R' m) : VfsNode.Twin R' { n with isDeleted := true }
          { m with isDeleted := true } := by
        refine ⟨h.id, h.parent, ?_⟩
        rw [← h.rest]
      refine .ok hR ⟨hwv, hww, ?_⟩ (hkill htwin)
      have hdead := hsim.tables.modify hij fun n m _ _ h => ⟨hkill h, rfl⟩
      have hdropped := hdead.dropChild ⟨hopen.same, hopen.left, hopen.right⟩ hij
      have hopen' : Open R' ((v'.modifyNode i fun node => { node with isDeleted := true }).dropChild d i)
          ((w'.modifyNode j fun node => { node with isDeleted := true }).dropChild e j) d e :=
        Open.dropChild ⟨hopen.same, hopen.left, hopen.right⟩
      exact hdropped.setChild hopen' name .none
  · rw [hv, hw]
    exact .error (fun _ _ h => h) h htwin

theorem remove_keeps_list {ids : List Nat} (hids : v.dirChildren d = some ids) (name : Str)
    (hi : ∃ ids, v.dirChildren i = some ids) : ∃ ids, (v.remove g d name).2.dirChildren i = some ids := by
  obtain ⟨is, his⟩ := hi
  rcases remove_listed (g := g) hids name with heq | ⟨k, n, -, -, heq⟩ <;> rw [heq]
  · exact ⟨is, his⟩
  · rw [setChild_dirChildren, dropChild_dirChildren, modifyNode_dirChildren]
    split_ifs with hid
    · exact ⟨_, by rw [← hid, his]; rfl⟩
    · exact ⟨is, his⟩

/-- The number of the second directory is looked at when the first one has its children. -/
theorem Sim.rename (h : Sim g R v w) (hde : Arg R v w d e) (fromName toName : Str) :
    ∃ R₁, (∀ i j, R i j → R₁ i j) ∧
      Sim g R₁ (v.ensureDirPopulated g d).2 (w.ensureDirPopulated g e).2 ∧
      ∀ i j, Arg R₁ (v.ensureDirPopulated g d).2 (w.ensureDirPopulated g e).2 i j →
        Both g R₁ (fun _ _ _ => True) (v.rename g d fromName i toName) (w.rename g e fromName j toName) := by
  obtain ⟨R₁, v₁, w₁, hR₁, hsim₁, hopen₁, hv₁, hw₁⟩ | ⟨err, err', htwin, hv, hw⟩ := h.ensure hde
  · refine ⟨R₁, hR₁, by rw [hv₁, hw₁]; exact hsim₁, fun i j hij => ?_⟩
    rw [hv₁, hw₁] at hij
    have hwv := h.left.rename (g := g) d fromName i toName
    have hww := h.right.rename (g := g) e fromName j toName
    unfold VfsManager.rename at hwv hww ⊢
    rw [hv₁] at hwv ⊢
    rw [hw₁] at hww ⊢
    simp only at hwv hww ⊢
    obtain ⟨R₂, v₂, w₂, hR₂, hsim₂, hopen₂, hv₂, hw₂⟩ | ⟨err, err', htwin, hv, hw⟩ := hsim₁.ensure hij
    · rw [hv₂] at hwv ⊢
      rw [hw₂] at hww ⊢
      simp only at hwv hww ⊢
      have hopen : Open R₂ v₂ w₂ d e := by
        refine ⟨hR₂ _ _ hopen₁.same, ?_, ?_⟩
        · obtain ⟨ids, hids⟩ := hopen₁.left
          have := ensureDirPopulated_keeps_list (g := g) hsim₁.left hids i
          rw [hv₂] at this
          exact ⟨ids, this⟩
        · obtain ⟨ids, hids⟩ := hopen₁.right
          have := ensureDirPopulated_keeps_list (g := g) hsim₁.right hids j
          rw [hw₂] at this
          exact ⟨ids, this⟩
      obtain ⟨ids, hids⟩ := hopen.left
      have hname := (hsim₂.tables.opened d e ids hopen.same hids).2 fromName
      generalize v₂.childMap (d, fromName) = r at hname hwv ⊢
      generalize w₂.childMap (e, fromName) = r' at hname hww ⊢
      cases hname with
      | none => exact .error hR₂ hsim₂ (.sourceNotFound fromName)
      | @some x y hxy =>
        obtain ⟨n, m, hn, hm, -⟩ := hsim₂.tables.node x y hxy
        simp only [hn, hm] at hwv hww ⊢
        obtain ⟨R₃, hR₃, hsim₃⟩ := (hsim₂.remove (.inl hopen₂.same) toName).sim
        have hfrom : Open R₃ (v₂.remove g i toName).2 (w₂.remove g j toName).2 d e := by
          obtain ⟨is, his⟩ := hopen₂.left
          obtain ⟨js, hjs⟩ := hopen₂.right
          exact ⟨hR₃ _ _ hopen.same, remove_keeps_list his toName hopen.left,
            remove_keeps_list hjs toName hopen.right⟩
        have hto : Open R₃ (v₂.remove g i toName).2 (w₂.remove g j toName).2 i j := by
          obtain ⟨is, his⟩ := hopen₂.left
          obtain ⟨js, hjs⟩ := hopen₂.right
          exact ⟨hR₃ _ _ hopen₂.same, remove_keeps_list his toName hopen₂.left,
            remove_keeps_list hjs toName hopen₂.right⟩
        have hmoved : Tables g R₃
            ((v₂.remove g i toName).2.modifyNode x fun node => { node with parentId := i, name := toName })
            ((w₂.remove g j toName).2.modifyNode y fun node => { node with parentId := j, name := toName }) := by
          refine hsim₃.tables.modify (hR₃ _ _ hxy) fun n m _ _ h => ⟨⟨h.id, hto.same, ?_⟩, rfl⟩
          rw [← h.rest]
        have hnamed := (hmoved.setChild ⟨hfrom.same, hfrom.left, hfrom.right⟩ fromName .none).setChild
          ⟨hto.same, hto.left, hto.right⟩ toName (.some (hR₃ _ _ hxy))
        have hdropped := hnamed.dropChild ⟨hfrom.same, hfrom.left, hfrom.right⟩ (hR₃ _ _ hxy)
        have hlisted := hdropped.pushChild (Open.dropChild ⟨hto.same, hto.left, hto.right⟩) (hR₃ _ _ hxy)
        exact .ok (fun i j hij => hR₃ i j (hR₂ i j hij)) ⟨hwv, hww, hlisted⟩ trivial
    · rw [hv, hw]
      exact .error (fun _ _ h => h) hsim₁ htwin
  · refine ⟨R, fun _ _ h => h, by rw [hv, hw]; exact h, fun i j hij => ?_⟩
    unfold VfsManager.rename
    rw [hv, hw]
    exact .error (fun _ _ h => h) h htwin

theorem Sim.ensureDirs (h : Sim g R v w) (hij : R i j) (parts : List Str) :
    Both g R (fun R i j => R i j) (v.ensureDirs g i parts) (w.ensureDirs g j parts) := by
  induction parts generalizing v w R i j with
  | nil => exact .ok (fun _ _ h => h) h hij
  | cons part parts ih =>
    rw [VfsManager.ensureDirs, VfsManager.ensureDirs]
    have hname : R i j ∨ part ≠ ['.'] := .inl hij
    have hlookup := h.lookup (.inl hij) hname
    generalize v.lookup g i part = a at hlookup ⊢
    generalize w.lookup g j part = b at hlookup ⊢
    cases hlookup with
    | ok hR hsim hxy => exact (ih hsim hxy).mono hR
    | error hR hsim htwin =>
      rename_i R₁ err err' v₁ w₁
      have hmkdir := hsim.mkdir (.inl (hR _ _ hij)) part
      simp only
      generalize v₁.mkdir g i part = a at hmkdir ⊢
      generalize w₁.mkdir g j part = b at hmkdir ⊢
      cases hmkdir with
      | ok hR' hsim' hnode => exact (ih hsim' hnode.id).mono fun x y hxy => hR' x y (hR x y hxy)
      | error hR' hsim' htwin' => exact .error (fun x y hxy => hR' x y (hR x y hxy)) hsim' htwin'

theorem Sim.ensureParentDirs (h : Sim g R v w) (hroot : R rootInode rootInode) (path : Str) :
    Both g R (fun R a b => R a.1 b.1 ∧ a.2 = b.2) (v.ensureParentDirs g path) (w.ensureParentDirs g path) := by
  unfold VfsManager.ensureParentDirs
  simp only
  cases (components (trimMatches '/' path)).getLast? with
  | none => exact .error (fun _ _ h => h) h .emptyPath
  | some basename =>
    have hdirs := h.ensureDirs hroot (components (trimMatches '/' path)).dropLast
    simp only
    generalize v.ensureDirs g rootInode _ = a at hdirs ⊢
    generalize w.ensureDirs g rootInode _ = b at hdirs ⊢
    cases hdirs with
    | ok hR hsim hxy => exact .ok hR hsim ⟨hxy, rfl⟩
    | error hR hsim htwin => exact .error hR hsim htwin

/-! ## One call -/

/-- The number on the other server. One that names nothing, now that the call is done, is no inode there either:
`0` never is. -/
def renumbering (ρ : Nat → Nat) (v : VfsManager) (i : Nat) : Nat :=
  if (v.nodes i).isSome then ρ i else 0

theorem renumbering_none {ρ : Nat → Nat} (h : v.nodes i = none) : renumbering ρ v i = 0 := by
  unfold renumbering
  rw [h]
  rfl

theorem Sim.renumbering_eq (h : Sim g R v w) (hij : R i j) {ρ : Nat → Nat} (hρ : ∀ i j, R i j → ρ i = j) :
    renumbering ρ v i = j := by
  obtain ⟨n, -, hn, -⟩ := h.tables.node i j hij
  unfold renumbering
  rw [hn]
  exact hρ i j hij

/-- The number of a directory on the other server. -/
theorem Sim.find (h : Sim g R v w) (hzero : w.nodes 0 = none) (d : Nat) :
    ∃ e, Arg R v w d e ∧ ∀ R' v' w' ρ, (∀ i j, R i j → R' i j) → Sim g R' v' w' →
      (v.nodes d = none → v'.nodes d = none) → (∀ i j, R' i j → ρ i = j) → renumbering ρ v' d = e := by
  cases hd : v.nodes d with
  | none =>
    refine ⟨0, .inr ⟨hd, hzero⟩, fun R' v' w' ρ _ _ hnone _ => ?_⟩
    exact renumbering_none (hnone rfl)
  | some n =>
    obtain ⟨e, hde⟩ := h.tables.total d n hd
    exact ⟨e, .inl hde, fun R' v' w' ρ hR hsim _ hρ => hsim.renumbering_eq (hR d e hde) hρ⟩

theorem ensureDirPopulated_missing (hv : v.WellFormed) (hd : v.nodes d = none) :
    v.ensureDirPopulated g d = (.error (.dirNotFound d), v) := by
  have hlist : v.dirChildren d = none := by
    by_contra hne
    obtain ⟨ids, hids⟩ := Option.ne_none_iff_exists'.mp hne
    obtain ⟨-, ⟨n, hn, -⟩, -⟩ := hv.listed d ids hids
    rw [hd] at hn
    cases hn
  unfold ensureDirPopulated
  simp only [hlist, hd]

theorem Both.alike {α : Type} {T : (Nat → Nat → Prop) → α → α → Prop} {a b : Except Error α × VfsManager}
    (h : Both g R T a b) (f : α → Reply) (hf : ∀ R x y, T R x y → (f x).Twin R (f y)) (call call' : VfsCall) :
    ∃ R', (∀ i j, R i j → R' i j) ∧ Sim g R' a.2 b.2 ∧ Alike R' (call, a.1.map f) (call', b.1.map f) := by
  cases h with
  | ok hR hsim h => exact ⟨_, hR, hsim, .ok (hf _ _ _ h)⟩
  | error hR hsim h => exact ⟨_, hR, hsim, .error h⟩

/-- What a call comes to on the second server, when it is given the numbers that the first server's have there
in the end. -/
def Follows (g : GitEngine) (R : Nat → Nat → Prop) (v w : VfsManager) (call : VfsCall) : Prop :=
  ∃ call' R', (∀ i j, R i j → R' i j) ∧ Sim g R' (call.apply g v) (call'.apply g w) ∧
    Alike R' (call, call.answer g v) (call', call'.answer g w) ∧
    ∀ ρ, (∀ i j, R' i j → ρ i = j) → call.renumber (renumbering ρ (call.apply g v)) = call'

/-- A call on one directory. -/
theorem Sim.follows_dir (h : Sim g R v w) (hzero : w.nodes 0 = none) (call : Nat → VfsCall) (d : Nat)
    (hrenumber : ∀ f d, (call d).renumber f = call (f d)) (hmissing : v.nodes d = none → (call d).apply g v = v)
    (hboth : ∀ e, Arg R v w d e → ∃ R', (∀ i j, R i j → R' i j) ∧
      Sim g R' ((call d).apply g v) ((call e).apply g w) ∧
      Alike R' (call d, (call d).answer g v) (call e, (call e).answer g w)) : Follows g R v w (call d) := by
  obtain ⟨e, harg, hfind⟩ := h.find hzero d
  obtain ⟨R', hR, hsim, halike⟩ := hboth e harg
  refine ⟨call e, R', hR, hsim, halike, fun ρ hρ => ?_⟩
  rw [hrenumber, hfind R' _ _ ρ hR hsim (fun hd => by rw [hmissing hd, hd]) hρ]

theorem lookup_state (hv : v.WellFormed) (d : Nat) (name : Str) :
    (v.lookup g d name).2 = v ∨ (v.lookup g d name).2 = (v.ensureDirPopulated g d).2 := by
  by_cases hdot : name = ['.']
  · left
    unfold lookup
    rw [if_pos hdot]
  by_cases hdots : name = ['.', '.']
  · left
    unfold lookup
    rw [if_neg hdot, if_pos hdots]
    split <;> rfl
  right
  rw [lookup_eq hv hdot hdots]
  generalize v.ensureDirPopulated g d = r
  obtain ⟨_ | _, v₁⟩ := r
  · rfl
  · simp only
    split <;> rfl

theorem listDir_state (d : Nat) : (v.listDir g d).2 = (v.ensureDirPopulated g d).2 := by
  unfold listDir
  generalize v.ensureDirPopulated g d = r
  obtain ⟨_ | _, v₁⟩ := r <;> rfl

theorem Sim.follows_lookup (h : Sim g R v w) (hzero : w.nodes 0 = none) (d : Nat) (name : Str) :
    Follows g R v w (.lookup d name) := by
  have hmissing (hd : v.nodes d = none) : (v.lookup g d name).2 = v := by
    rcases lookup_state h.left d name with heq | heq
    · exact heq
    · rw [heq, ensureDirPopulated_missing h.left hd]
  refine h.follows_dir hzero (fun d => .lookup d name) d (fun _ _ => rfl) hmissing fun e harg => ?_
  by_cases hname : R d e ∨ name ≠ ['.']
  · exact (h.lookup harg hname).alike .inode (fun _ _ _ h => .inode h) _ _
  · obtain ⟨-, hdot⟩ := not_or.mp hname
    obtain rfl := not_not.mp hdot
    have hself (u : VfsManager) (p : Nat) : u.lookup g p ['.'] = (.ok p, u) := if_pos rfl
    refine ⟨R, fun _ _ h => h, ?_, ?_⟩
    · simp only [VfsCall.apply, hself]
      exact h
    · simp only [VfsCall.answer, hself]
      exact .echo d e

theorem rename_missing (hv : v.WellFormed) {fromDirId toDirId : Nat} {fromName toName : Str}
    (hto : (v.ensureDirPopulated g fromDirId).2.nodes toDirId = none) :
    (v.rename g fromDirId fromName toDirId toName).2 = (v.ensureDirPopulated g fromDirId).2 := by
  have hv' := hv.ensureDirPopulated (g := g) fromDirId
  unfold rename
  generalize v.ensureDirPopulated g fromDirId = r at hto hv' ⊢
  obtain ⟨_ | _, v₁⟩ := r
  · rfl
  · simp only
    rw [ensureDirPopulated_missing hv' hto]

theorem ensureDirPopulated_zero (hv : v.WellFormed) (hzero : v.nodes 0 = none) (d : Nat) :
    (v.ensureDirPopulated g d).2.nodes 0 = none := by
  obtain ⟨ids, -, h⟩ | ⟨dir, hd, hdir, hisDir, h⟩ | ⟨e, h⟩ := ensureDirPopulated_cases g v d <;> rw [h]
  · exact hzero
  · have hroot := hv.root
    obtain ⟨n, hn, -⟩ := hroot
    have hlt := hv.fresh _ n hn
    rw [populate_nodes (hv.unmapped hd), if_neg, hzero]
    omega
  · exact hzero

theorem Sim.follows_rename (h : Sim g R v w) (hzero : w.nodes 0 = none) (fromDirId : Nat) (fromName : Str)
    (toDirId : Nat) (toName : Str) : Follows g R v w (.rename fromDirId fromName toDirId toName) := by
  obtain ⟨e, harg, hfind⟩ := h.find hzero fromDirId
  obtain ⟨R₁, hR₁, hsim₁, hrename⟩ := h.rename harg fromName toName
  obtain ⟨j, harg₁, hfind₁⟩ := hsim₁.find (ensureDirPopulated_zero h.right hzero e) toDirId
  obtain ⟨R', hR', hsim, halike⟩ := (hrename toDirId j harg₁).alike (fun _ => .done) (fun _ _ _ _ => .done)
    (.rename fromDirId fromName toDirId toName) (.rename e fromName j toName)
  have hR (x y : Nat) (hxy : R x y) : R' x y := hR' x y (hR₁ x y hxy)
  refine ⟨.rename e fromName j toName, R', hR, hsim, halike, fun ρ hρ => ?_⟩
  have hfrom : renumbering ρ (VfsCall.apply g v (.rename fromDirId fromName toDirId toName)) fromDirId = e := by
    refine hfind R' _ _ ρ hR hsim (fun hd => ?_) hρ
    simp only [VfsCall.apply, VfsManager.rename, ensureDirPopulated_missing h.left hd]
    exact hd
  have hto : renumbering ρ (VfsCall.apply g v (.rename fromDirId fromName toDirId toName)) toDirId = j := by
    refine hfind₁ R' _ _ ρ hR' hsim (fun hd => ?_) hρ
    rw [VfsCall.apply, rename_missing h.left hd]
    exact hd
  rw [VfsCall.renumber, hfrom, hto]

/-- What one call does on the two servers. -/
theorem Sim.follows (h : Sim g R v w) (hroot : R rootInode rootInode) (hzero : w.nodes 0 = none)
    (call : VfsCall) : Follows g R v w call := by
  cases call with
  | lookup d name => exact h.follows_lookup hzero d name
  | listDir d =>
    refine h.follows_dir hzero .listDir d (fun _ _ => rfl) (fun hd => ?_) fun e harg =>
      (h.listDir harg).alike .nodes (fun _ _ _ h => .nodes h) _ _
    simp only [VfsCall.apply, VfsManager.listDir, ensureDirPopulated_missing h.left hd]
  | createFile d name mode =>
    refine h.follows_dir hzero (fun d => .createFile d name mode) d (fun _ _ => rfl) (fun hd => ?_) fun e harg =>
      (h.createFile harg name mode).alike .node (fun _ _ _ h => .node h) _ _
    simp only [VfsCall.apply, VfsManager.createFile, ensureDirPopulated_missing h.left hd]
  | mkdir d name =>
    refine h.follows_dir hzero (fun d => .mkdir d name) d (fun _ _ => rfl) (fun hd => ?_) fun e harg =>
      (h.mkdir harg name).alike .node (fun _ _ _ h => .node h) _ _
    simp only [VfsCall.apply, VfsManager.mkdir, ensureDirPopulated_missing h.left hd]
  | remove d name =>
    refine h.follows_dir hzero (fun d => .remove d name) d (fun _ _ => rfl) (fun hd => ?_) fun e harg =>
      (h.remove harg name).alike .node (fun _ _ _ h => .node h) _ _
    simp only [VfsCall.apply, VfsManager.remove, ensureDirPopulated_missing h.left hd]
  | rename fromDirId fromName toDirId toName => exact h.follows_rename hzero fromDirId fromName toDirId toName
  | ensureParentDirs path =>
    obtain ⟨R', hR, hsim, halike⟩ := (h.ensureParentDirs hroot path).alike (fun r => .place r.1 r.2)
      (fun _ x y h => h.2 ▸ .place h.1 x.2) (.ensureParentDirs path) (.ensureParentDirs path)
    exact ⟨.ensureParentDirs path, R', hR, hsim, halike, fun ρ hρ => rfl⟩

/-- No call ever gives the number `0`. -/
theorem apply_zero (hv : v.WellFormed) (hzero : v.nodes 0 = none) (call : VfsCall) :
    (call.apply g v).nodes 0 = none := by
  have hchanges : Changes ⟨True, True, fun _ => True, fun _ _ _ _ => True⟩ g v (call.apply g v) := by
    refine apply_changes hv call (.inr trivial) (fun _ _ => trivial) (.inl trivial) ?_
    cases call with
    | rename => exact fun _ _ _ _ => trivial
    | _ => trivial
  refine hchanges.keeps (I := fun u => u.nodes 0 = none) (fun u u' hu hchange h => ?_) hzero
  have hpos : 0 < u.nextInode := by
    obtain ⟨n, hn, -⟩ := hu.root
    exact Nat.lt_of_le_of_lt (Nat.zero_le _) (hu.fresh _ n hn)
  cases hchange with
  | populate hd hdir hisDir =>
    rw [populate_nodes (hu.unmapped hd), if_neg (by omega), h]
  | revive hfile hi hn hmap hnodes =>
    rw [hnodes, if_neg, h]
    rintro rfl
    rw [h] at hn
    cases hn
  | add hid hlive hfile hdir hname hfree hmap hnodes => rw [hnodes, if_neg (by omega), h]
  | remove hi hmap hnodes =>
    rw [hnodes]
    split_ifs with h0
    · rw [← h0, h]
      rfl
    · exact h
  | move hi hn hdir hname hmove hmap hnodes =>
    rw [hnodes, if_neg]
    · split_ifs
      · rw [h]
        rfl
      · exact h
    · rintro rfl
      rw [h] at hn
      cases hn

end

/-! ## Runs of calls -/

/-- A call that only looks. -/
inductive Look
  | lookup (dirId : Nat) (name : Str)
  | listDir (dirId : Nat)
  deriving DecidableEq, Repr

def Look.call : Look → VfsCall
  | lookup dirId name => .lookup dirId name
  | listDir dirId => .listDir dirId

/-- The calls one after the other, each with its result. -/
def results (g : GitEngine) : VfsManager → List VfsCall → List (VfsCall × Except Error Reply)
  | _, [] => []
  | v, call :: calls => (call, call.answer g v) :: results g (call.apply g v) calls

def looked (g : GitEngine) (w : VfsManager) (looks : List Look) : VfsManager :=
  looks.foldl (fun w look => look.call.apply g w) w

/-- The same calls on a second server, that is looked at before each of them. The numbers in a call are those
that the inodes have there; the first server is only asked which of them are inodes. -/
def woven (g : GitEngine) (ρ : Nat → Nat) :
    VfsManager → VfsManager → List (List Look × VfsCall) → List (VfsCall × Except Error Reply)
  | _, _, [] => []
  | v, w, (looks, call) :: script =>
    let w := looked g w looks
    let call' := call.renumber (renumbering ρ (call.apply g v))
    (call', call'.answer g w) :: woven g ρ (call.apply g v) (call'.apply g w) script

section

variable {g : GitEngine} {R : Nat → Nat → Prop} {v w : VfsManager}

/-- Looking changes nothing. -/
theorem Sim.after_looks (h : Sim g R v w) (hzero : w.nodes 0 = none) (looks : List Look) :
    Sim g R v (looked g w looks) ∧ (looked g w looks).nodes 0 = none := by
  induction looks generalizing w with
  | nil => exact ⟨h, hzero⟩
  | cons look looks ih =>
    refine ih ?_ (apply_zero h.right hzero look.call)
    cases look with
    | lookup d name =>
      change Sim g R v (w.lookup g d name).2
      rcases lookup_state h.right d name with heq | heq <;> rw [heq]
      · exact h
      · exact h.ensure_right d
    | listDir d =>
      change Sim g R v (w.listDir g d).2
      rw [listDir_state]
      exact h.ensure_right d

/-- The second server follows the first one through all the calls. -/
theorem Sim.along (h : Sim g R v w) (hroot : R rootInode rootInode) (hzero : w.nodes 0 = none)
    (script : List (List Look × VfsCall)) :
    ∃ R' v' w', (∀ i j, R i j → R' i j) ∧ Sim g R' v' w' ∧ ∀ ρ, (∀ i j, R' i j → ρ i = j) →
      List.Forall₂ (Alike R') (results g v (script.map Prod.snd)) (woven g ρ v w script) := by
  induction script generalizing R v w with
  | nil => exact ⟨R, v, w, fun _ _ h => h, h, fun _ _ => .nil⟩
  | cons entry script ih =>
    obtain ⟨looks, call⟩ := entry
    obtain ⟨hlooked, hzero'⟩ := h.after_looks hzero looks
    obtain ⟨call', R₁, hR₁, hsim₁, halike, hcall⟩ := hlooked.follows hroot hzero' call
    obtain ⟨R', v', w', hR', hsim, hall⟩ := ih hsim₁ (hR₁ _ _ hroot) (apply_zero hlooked.right hzero' call')
    refine ⟨R', v', w', fun i j hij => hR' i j (hR₁ i j hij), hsim, fun ρ hρ => ?_⟩
    have hsame := hcall ρ fun i j hij => hρ i j (hR' i j hij)
    rw [List.map_cons, results, woven, hsame]
    exact .cons (halike.mono hR') (hall ρ hρ)

/-- The relation as a function. The numbers that are no inodes on the first server go behind the last one of
the second. -/
theorem Sim.function (h : Sim g R v w) : ∃ ρ : Nat → Nat, Function.Injective ρ ∧ ∀ i j, R i j → ρ i = j := by
  classical
  have hbound (i j : Nat) (hij : R i j) : j < w.nextInode := by
    obtain ⟨-, m, -, hm, -⟩ := h.tables.node i j hij
    exact h.right.fresh j m hm
  refine ⟨fun i => if hi : ∃ j, R i j then hi.choose else w.nextInode + i, ?_, ?_⟩
  · intro i i' heq
    simp only at heq
    split_ifs at heq with hi hi' hi'
    · exact h.tables.unique.1 hi.choose_spec (heq ▸ hi'.choose_spec)
    · have := hbound _ _ hi.choose_spec
      omega
    · have := hbound _ _ hi'.choose_spec
      omega
    · omega
  · intro i j hij
    have hi : ∃ j, R i j := ⟨j, hij⟩
    simp only [dif_pos hi]
    exact h.tables.unique.2 hi.choose_spec hij

end

/-- Looking at directories early, wherever and as often as one likes, changes nothing but the numbers. -/
theorem looks_unseen (g : GitEngine) (rootOid : Str) (script : List (List Look × VfsCall)) :
    ∃ ρ : Nat → Nat, Function.Injective ρ ∧ ρ rootInode = rootInode ∧
      List.Forall₂ (Alike fun i j => ρ i = j) (results g (.new rootOid) (script.map Prod.snd))
        (woven g ρ (.new rootOid) (.new rootOid) script) := by
  have hsim := Sim.refl (g := g) (.new rootOid)
  have hroot : ∃ n, (VfsManager.new rootOid).nodes rootInode = some n := by
    obtain ⟨n, hn, -⟩ := (WellFormed.new rootOid).root
    exact ⟨n, hn⟩
  obtain ⟨R', v', w', hR, hsim', hall⟩ := hsim.along ⟨rfl, hroot⟩ rfl script
  obtain ⟨ρ, hinj, hρ⟩ := hsim'.function
  refine ⟨ρ, hinj, hρ _ _ (hR _ _ ⟨rfl, hroot⟩), ?_⟩
  exact (hall ρ hρ).imp fun _ _ h => h.mono hρ

end VfsManager

end GitNfs
