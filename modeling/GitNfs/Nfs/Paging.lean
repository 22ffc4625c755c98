import GitNfs.Lib.Paging
import GitNfs.Lib.Run
import GitNfs.Nfs.Seen
import GitNfs.Vfs.Edits

/-! # Reading a directory page by page

A client asks for pages until one is the last, each time with the file id of the last entry that it got. In the
meantime other clients remove children that it has got.
-/

namespace GitNfs

namespace Fs

variable {g : GitEngine} {fs fs' : Fs}

/-! ## The entries of a directory -/

def DirEntry.key (e : DirEntry) : Nat × Str := (e.fileid, e.name)

/-- The children that `readdir` lists. -/
def children (g : GitEngine) (fs : Fs) (dirid : Nat) : List (Nat × Str) :=
  match fs.vfs.listDir g dirid with
  | (.error _, _) => []
  | (.ok nodes, _) => (nodes.filter fun c => !fs.staging.isDeleted c.id).map fun c => (c.id, c.name)

/-- All that `readdir` lists. -/
def listing (g : GitEngine) (fs : Fs) (dirid parentId : Nat) : List (Nat × Str) :=
  (dirid, ['.']) :: (parentId, ['.', '.']) :: fs.children g dirid

/-- The page that `readdir` cuts out of its entries. -/
theorem page_of_entries {all : List DirEntry} {keys : List (Nat × Str)} (h : all.map DirEntry.key = keys)
    (startAfter maxEntries : Nat) :
    let startIdx :=
      if startAfter = 0 then 0
      else
        match all.findIdx? fun e => e.fileid = startAfter with
        | some idx => idx + 1
        | none => 0
    let endIdx := min (startIdx + maxEntries) all.length
    (((all.take endIdx).drop startIdx).map DirEntry.key, decide (all.length ≤ endIdx)) =
      Paging.page keys (if startAfter = 0 then 0 else Paging.startIdx Prod.fst keys startAfter) maxEntries := by
  subst h
  rw [Paging.startIdx_map, Paging.page_map]
  rfl

theorem ensureDirPopulated_live {dirid : Nat} {dir : VfsNode} (hdir : fs.vfs.nodes dirid = some dir)
    (hisDir : dir.isDir = true) : ∃ v₁, fs.vfs.ensureDirPopulated g dirid = (.ok (), v₁) := by
  unfold VfsManager.ensureDirPopulated
  split
  · exact ⟨_, rfl⟩
  · rw [hdir]
    simp only [hisDir, if_true]
    exact ⟨_, rfl⟩

theorem listDir_populated {dirid : Nat} {v₁ : VfsManager} (h : fs.vfs.ensureDirPopulated g dirid = (.ok (), v₁)) :
    fs.vfs.listDir g dirid = (.ok (((v₁.dirChildren dirid).getD []).filterMap v₁.getNode), v₁) := by
  unfold VfsManager.listDir
  rw [h]

/-- A page of a directory that is there. -/
theorem readdir_ok {dirid : Nat} {dir : VfsNode} (hdir : fs.vfs.getNode dirid = some dir) (hisDir : dir.isDir = true)
    (startAfter maxEntries : Nat) :
    ∃ entries ended, fs.readdir g dirid startAfter maxEntries =
        (.ok (entries, ended), fs.setVfs (fs.vfs.ensureDirPopulated g dirid).2) ∧
      (entries.map DirEntry.key, ended) = Paging.page (fs.listing g dirid dir.parentId)
        (if startAfter = 0 then 0 else Paging.startIdx Prod.fst (fs.listing g dirid dir.parentId) startAfter)
        maxEntries := by
  obtain ⟨v₁, hpop⟩ := ensureDirPopulated_live (g := g) (VfsManager.getNode_eq_some.mp hdir).1 hisDir
  have hlist := listDir_populated hpop
  unfold readdir
  simp only [hdir, hisDir, hlist, hpop, Bool.not_true, Bool.false_eq_true, if_false]
  refine ⟨_, _, rfl, page_of_entries ?_ startAfter maxEntries⟩
  unfold listing children
  rw [hlist]
  simp only [List.map_cons, List.map_map]
  rfl

/-! ## Removing a child -/

theorem children_listed {dirid : Nat} {ids : List Nat} (h : fs.vfs.dirChildren dirid = some ids) :
    fs.children g dirid = ((ids.filterMap fs.vfs.getNode).filter fun c => !fs.staging.isDeleted c.id).map
      fun c => (c.id, c.name) := by
  unfold children VfsManager.listDir VfsManager.ensureDirPopulated
  rw [h]
  simp only [h, Option.getD_some]

/-- The children that are listed of a directory that is populated. -/
theorem children_populated {dirid : Nat} {v₁ : VfsManager} (h : fs.vfs.ensureDirPopulated g dirid = (.ok (), v₁)) :
    (fs.setVfs v₁).children g dirid = fs.children g dirid := by
  have hagain : (fs.setVfs v₁).vfs.ensureDirPopulated g dirid = (.ok (), v₁) := by
    have hids : ∃ ids, v₁.dirChildren dirid = some ids := by
      unfold VfsManager.ensureDirPopulated at h
      split at h
      · rename_i ids hids
        cases h
        exact ⟨ids, hids⟩
      · split at h
        · simp at h
        · split_ifs at h
          · cases h
            unfold VfsManager.populate
            simp
          · simp at h
    obtain ⟨ids, hids⟩ := hids
    show v₁.ensureDirPopulated g dirid = _
    unfold VfsManager.ensureDirPopulated
    rw [hids]
  unfold children
  rw [listDir_populated h, listDir_populated hagain]
  rfl

theorem Alike.children (h : fs.Alike fs') (dirid : Nat) : fs'.children g dirid = fs.children g dirid := by
  obtain ⟨_, _, _, rfl⟩ := h
  rfl

/-- What is left of a filtered list of nodes when one of them is dead. -/
theorem filterMap_kill {v v' : VfsManager} (hv : v.WellFormed) {i : Nat}
    (hnodes : ∀ j, v'.nodes j = if j = i then (v.nodes i).map VfsManager.kill else v.nodes j) (ids : List Nat) :
    (ids.filter fun j => j ≠ i).filterMap v'.getNode = (ids.filterMap v.getNode).filter fun c => c.id ≠ i := by
  induction ids with
  | nil => rfl
  | cons j ids ih =>
    by_cases hj : j = i
    · subst hj
      rw [List.filter_cons_of_neg (by simp), ih]
      cases hn : v.getNode j with
      | none => rw [List.filterMap_cons_none hn]
      | some n =>
        have hid : n.id = j := hv.id_eq j n (VfsManager.getNode_eq_some.mp hn).1
        rw [List.filterMap_cons_some hn, List.filter_cons_of_neg (by simp [hid])]
    · have hsame : v'.getNode j = v.getNode j := by
        unfold VfsManager.getNode
        rw [hnodes, if_neg hj]
      rw [List.filter_cons_of_pos (by simp [hj]), List.filterMap_cons, List.filterMap_cons, hsame]
      cases hn : v.getNode j with
      | none => exact ih
      | some n =>
        have hid : n.id = j := hv.id_eq j n (VfsManager.getNode_eq_some.mp hn).1
        simp only
        rw [List.filter_cons_of_pos (by simp [hid, hj]), ih]

theorem markDeleted_isDeleted (st : StagingStore) (i j : Nat) :
    (st.markDeleted i).isDeleted j = (decide (j = i) || st.isDeleted j) := by
  unfold StagingStore.isDeleted StagingStore.markDeleted
  rw [Bool.eq_iff_iff]
  simp [List.mem_insert_iff]

/-- A removal takes one child away, or nothing. -/
theorem remove_children (hs : fs.Sound) {dirid : Nat} {dir : VfsNode} (hdir : fs.vfs.nodes dirid = some dir)
    (hisDir : dir.isDir = true) (filename : Bytes) :
    ∃ v₁, fs.vfs.ensureDirPopulated g dirid = (.ok (), v₁) ∧
      ((fs.act g none (.remove dirid filename)).2 = fs.setVfs v₁ ∨
      ∃ i, v₁.childMap (dirid, fromUtf8Lossy filename) = some i ∧
        (fs.act g none (.remove dirid filename)).2.children g dirid =
          (fs.children g dirid).filter (fun c => c.1 ≠ i) ∧
        ∀ j, (fs.act g none (.remove dirid filename)).2.vfs.nodes j =
          if j = i then (v₁.nodes i).map VfsManager.kill else v₁.nodes j) := by
  obtain ⟨v₁, hpop⟩ := ensureDirPopulated_live (g := g) hdir hisDir
  refine ⟨v₁, hpop, ?_⟩
  obtain ⟨hv₁, ids, hids⟩ := hs.wellFormed.ensureDirPopulated_ok hpop
  obtain ⟨e, he, hvfs⟩ | ⟨v₂, i, n, hpop', hi, hn, heq⟩ :=
    VfsManager.remove_cases g fs.vfs dirid (fromUtf8Lossy filename)
  · left
    rcases hrm : fs.vfs.remove g dirid (fromUtf8Lossy filename) with ⟨e' | node, v'⟩
    · rw [hrm, hpop] at hvfs
      simp only [act, hrm]
      rw [show v' = v₁ from hvfs]
    · simp [hrm] at he
  · right
    rw [hpop, Prod.mk.injEq] at hpop'
    obtain ⟨-, rfl⟩ := hpop'
    have hid : n.id = i := hv₁.id_eq i n hn
    refine ⟨i, hi, ?_, ?_⟩
    · have hafter : (fs.act g none (.remove dirid filename)).2.vfs.dirChildren dirid =
          some (ids.filter fun j => j ≠ i) := by
        simp only [act, heq]
        rw [VfsManager.setChild_dirChildren, VfsManager.dropChild_dirChildren, if_pos rfl,
          VfsManager.modifyNode_dirChildren, hids]
        rfl
      rw [← children_populated hpop, children_listed hafter, children_listed hids, List.filter_map]
      simp only [act, heq, hid]
      rw [filterMap_kill hv₁ (fun j => by simp; rfl), List.filter_filter, List.filter_filter]
      congr 1
      apply List.filter_congr
      intro c _
      rw [markDeleted_isDeleted, show (fs.setVfs v₁).staging = fs.staging from rfl]
      by_cases hc : c.id = i <;> simp [hc]
    · simp only [act, heq]
      intro j
      simp only [VfsManager.setChild_nodes, VfsManager.dropChild_nodes, VfsManager.modifyNode_nodes]
      rfl

/-- The children have different file ids, none of which is 0. -/
theorem children_ids (hs : fs.Sound) {dirid : Nat} {dir : VfsNode} (hdir : fs.vfs.nodes dirid = some dir)
    (hisDir : dir.isDir = true) :
    ((fs.children g dirid).map Prod.fst).Nodup ∧ ∀ c ∈ fs.children g dirid, c.1 ≠ 0 := by
  obtain ⟨v₁, hpop⟩ := ensureDirPopulated_live (g := g) hdir hisDir
  have hs₁ := hs.populated (g := g) dirid
  rw [hpop] at hs₁
  obtain ⟨hv₁, ids, hids⟩ := hs.wellFormed.ensureDirPopulated_ok hpop
  rw [← children_populated hpop, children_listed hids, List.map_map]
  obtain ⟨hnodup, -⟩ := hv₁.listed dirid ids hids
  constructor
  · have hsub : ((ids.filterMap (fs.setVfs v₁).vfs.getNode).map fun c => c.id).Sublist ids := by
      clear hnodup hids
      induction ids with
      | nil => exact .slnil
      | cons i ids ih =>
        cases hn : (fs.setVfs v₁).vfs.getNode i with
        | none =>
          rw [List.filterMap_cons_none hn]
          exact ih.cons i
        | some n =>
          have hid : n.id = i := hv₁.id_eq i n (VfsManager.getNode_eq_some.mp hn).1
          rw [List.filterMap_cons_some hn, List.map_cons, hid]
          exact ih.cons_cons i
    exact hnodup.sublist ((List.filter_sublist.map _).trans hsub)
  · intro c hc hzero
    obtain ⟨n, hn, rfl⟩ := List.mem_map.mp hc
    obtain ⟨i, -, hi⟩ := List.mem_filterMap.mp (List.mem_filter.mp hn).1
    have hnode := (VfsManager.getNode_eq_some.mp hi).1
    have hid : n.id = i := hv₁.id_eq i n hnode
    have hnone : v₁.nodes 0 = none := hs₁.zero
    replace hnode : v₁.nodes i = some n := hnode
    rw [← hid, show n.id = 0 from hzero, hnone] at hnode
    simp at hnode

/-- A live child is listed. -/
theorem mem_children (hs : fs.Sound) {dirid i : Nat} {name : Str} {v₁ : VfsManager}
    (hpop : fs.vfs.ensureDirPopulated g dirid = (.ok (), v₁)) (hlive : v₁.liveChild dirid name = some i)
    (hdel : fs.staging.isDeleted i = false) : (i, name) ∈ fs.children g dirid := by
  obtain ⟨hv₁, -⟩ := hs.wellFormed.ensureDirPopulated_ok hpop
  obtain ⟨hi, n, hn⟩ := VfsManager.liveChild_eq_some.mp hlive
  obtain ⟨m, hm, -, hname, -⟩ := VfsManager.mapped_node hv₁ hi
  obtain ⟨-, ids, hids, hmem⟩ := hv₁.child dirid name i hi
  obtain ⟨hnode, -⟩ := VfsManager.getNode_eq_some.mp hn
  rw [hm, Option.some.injEq] at hnode
  subst hnode
  have hid : m.id = i := hv₁.id_eq i m hm
  have hlisted : (fs.setVfs v₁).children g dirid = _ := children_listed hids
  rw [← children_populated hpop, hlisted]
  refine List.mem_map.mpr ⟨m, List.mem_filter.mpr ⟨List.mem_filterMap.mpr ⟨i, hmem, hn⟩, ?_⟩, by rw [hid, hname]⟩
  rw [hid, show (fs.setVfs v₁).staging = fs.staging from rfl, hdel]
  rfl

end Fs

/-! ## A run of calls -/

inductive DirReadEvent where
  | call (maxEntries : Nat)
  | removed (now : Nat) (filename : Bytes)
  deriving DecidableEq, Repr

structure DirRead where
  fs : Fs
  /-- The entries of all pages so far. -/
  returned : List Fs.DirEntry
  ended : Bool
  calls : Nat

namespace DirRead

open Fs (DirEntry)

/-- The file id that the next call continues from. -/
def startAfter (p : DirRead) : Nat := p.returned.getLast?.elim 0 DirEntry.fileid

def start (fs : Fs) : DirRead := ⟨fs, [], false, 0⟩

/-- Once a page is the last one there are no more calls. A call that fails leaves the client where it was. -/
def step (g : GitEngine) (dirid : Nat) (p : DirRead) : DirReadEvent → Option DirRead
  | .call maxEntries =>
    if p.ended then some { p with calls := p.calls + 1 }
    else
      match p.fs.readdir g dirid p.startAfter maxEntries with
      | (.ok (entries, ended), fs) => some ⟨fs, p.returned ++ entries, ended, p.calls + 1⟩
      | (.error _, fs) => some { p with fs, calls := p.calls + 1 }
  | .removed now filename =>
    match p.fs.handle g now none (.remove dirid filename) with
    | some h => some { p with fs := h.fs }
    | none => some { p with fs := p.fs.unanswered g (.remove dirid filename) }

/-- Every page may hold an entry, and only children that were returned are removed. -/
def Allowed (g : GitEngine) (dirid : Nat) (p : DirRead) : DirReadEvent → Prop
  | .call maxEntries => 1 ≤ maxEntries
  | .removed _ filename => ∀ i,
      (p.fs.vfs.ensureDirPopulated g dirid).2.childMap (dirid, fromUtf8Lossy filename) = some i →
      i ∈ (p.returned.drop 2).map DirEntry.fileid

/-- The entry that a call continues from is still listed, and none before it has the same file id. The first two
entries are the directory and its parent. -/
def Continues (g : GitEngine) (dirid : Nat) (p : DirRead) : DirReadEvent → Prop
  | .call _ => p.ended = true ∨ p.returned = [] ∨ ∃ dir, p.fs.vfs.getNode dirid = some dir ∧
      (p.returned.length = 1 ∨ (p.returned.length = 2 ∧ dir.parentId ≠ dirid) ∨
        (p.startAfter ∈ (p.fs.children g dirid).map Prod.fst ∧ p.startAfter ≠ dirid ∧
          p.startAfter ≠ dir.parentId))
  | .removed _ _ => True

/-- What a run has come to that started where the directory had these children. -/
structure Progress (g : GitEngine) (dirid parentId : Nat) (children : List (Nat × Str)) (p : DirRead) : Prop where
  sound : p.fs.Sound
  dir : ∃ dir, p.fs.vfs.nodes dirid = some dir ∧ dir.isDir = true ∧ dir.parentId = parentId ∧
    (p.returned = [] → dir.isDeleted = false)
  returned : p.returned.map DirEntry.key =
    ((dirid, ['.']) :: (parentId, ['.', '.']) :: children).take p.returned.length
  left : Paging.Left children (p.fs.children g dirid) (p.returned.length - 2)
  calls : p.ended = false → p.calls ≤ p.returned.length ∧ p.returned.length < children.length + 2
  ended : p.ended = true → p.returned.length = children.length + 2

variable {g : GitEngine} {dirid parentId : Nat} {children : List (Nat × Str)} {p p' : DirRead}

theorem Progress.start {fs : Fs} (hs : fs.Sound) {dir : VfsNode} (hdir : fs.vfs.getNode dirid = some dir)
    (hisDir : dir.isDir = true) : Progress g dirid dir.parentId (fs.children g dirid) (.start fs) where
  sound := hs
  dir := by
    obtain ⟨hnode, hlive⟩ := VfsManager.getNode_eq_some.mp hdir
    exact ⟨dir, hnode, hisDir, rfl, fun _ => hlive⟩
  returned := rfl
  left := .refl _
  calls _ := ⟨Nat.le_refl 0, Nat.succ_pos _⟩
  ended h := by simp [DirRead.start] at h

/-- What the removal of another client does to the state. -/
theorem removed_alike (p : DirRead) (now : Nat) (filename : Bytes)
    (hstep : p.step g dirid (.removed now filename) = some p') :
    ∃ fs', Fs.Alike (p.fs.act g none (.remove dirid filename)).2 fs' ∧ p' = { p with fs := fs' } := by
  unfold step at hstep
  simp only at hstep
  split at hstep
  · rename_i h heq
    cases hstep
    exact ⟨h.fs, (Fs.handle_answers heq).alike, rfl⟩
  · cases hstep
    refine ⟨_, ?_, rfl⟩
    simp only [Fs.unanswered, Fs.applyRemove, Fs.act]
    rcases p.fs.vfs.remove g dirid (fromUtf8Lossy filename) with ⟨e | node, v'⟩
    · exact .refl _
    · exact .refl _

/-- A child that was returned is none of those that were not. -/
theorem Progress.not_ahead (h : Progress g dirid parentId children p) (hnodup : (children.map Prod.fst).Nodup) {i : Nat}
    (hi : i ∈ (p.returned.drop 2).map DirEntry.fileid) : ∀ c ∈ children.drop (p.returned.length - 2), c.1 ≠ i := by
  rintro c hc rfl
  have hkeys : (p.returned.drop 2).map DirEntry.fileid = (children.take (p.returned.length - 2)).map Prod.fst := by
    have hret := congrArg (fun l => (l.drop 2).map Prod.fst) h.returned
    simp only [← List.map_drop, List.map_map] at hret
    rw [show (p.returned.drop 2).map DirEntry.fileid = (p.returned.drop 2).map (Prod.fst ∘ DirEntry.key) from rfl, hret]
    rw [List.drop_take]
    rfl
  rw [hkeys] at hi
  have hsplit := hnodup
  rw [← List.take_append_drop (p.returned.length - 2) children, List.map_append, List.nodup_append] at hsplit
  exact hsplit.2.2 _ hi _ (List.mem_map_of_mem hc) rfl

theorem Progress.removed (h : Progress g dirid parentId children p) (hnodup : (children.map Prod.fst).Nodup)
    {now : Nat} {filename : Bytes} (hallowed : p.Allowed g dirid (.removed now filename))
    (hstep : p.step g dirid (.removed now filename) = some p') : Progress g dirid parentId children p' := by
  obtain ⟨fs', halike, rfl⟩ := removed_alike p now filename hstep
  have hs' : fs'.Sound := (h.sound.act none (.remove dirid filename)).alike halike
  obtain ⟨dir, hdir, hisDir, hparent, hlive⟩ := h.dir
  obtain ⟨v₁, hpop, hcases⟩ := Fs.remove_children (g := g) h.sound hdir hisDir filename
  have hdir₁ : v₁.nodes dirid = some dir := by
    have ht := VfsManager.ensureDirPopulated_tracks (g := g) h.sound.wellFormed dirid
    rw [hpop] at ht
    exact ht.nodes dirid dir hdir
  rcases hcases with heq | ⟨i, hi, hchildren, hnodes⟩
  · rw [heq] at halike
    obtain ⟨_, _, _, rfl⟩ := halike
    refine ⟨hs', ⟨dir, hdir₁, hisDir, hparent, hlive⟩, h.returned, ?_, h.calls, h.ended⟩
    have hsame := Fs.children_populated hpop
    exact hsame ▸ h.left
  · have hreturned : i ∈ (p.returned.drop 2).map DirEntry.fileid := by
      apply hallowed
      rw [hpop]
      exact hi
    refine ⟨hs', ?_, h.returned, ?_, h.calls, h.ended⟩
    · have hvfs : fs'.vfs = (p.fs.act g none (.remove dirid filename)).2.vfs := by
        obtain ⟨_, _, _, rfl⟩ := halike
        rfl
      simp only [hvfs, hnodes]
      split_ifs with hd
      · rw [← hd, hdir₁]
        refine ⟨_, rfl, hisDir, hparent, fun hnone => ?_⟩
        simp [hnone] at hreturned
      · exact ⟨dir, hdir₁, hisDir, hparent, hlive⟩
    · rw [show ({ p with fs := fs' } : DirRead).fs = fs' from rfl, halike.children, hchildren]
      apply h.left.filter
      intro c hc
      simpa using h.not_ahead hnodup hreturned c hc

theorem startAfter_eq (p : DirRead) : p.startAfter = (p.returned.map DirEntry.key).getLast?.elim 0 Prod.fst := by
  unfold startAfter
  rw [List.getLast?_map]
  cases p.returned.getLast? with
  | none => rfl
  | some e => rfl

/-- Nothing is taken away before the first child is returned. -/
theorem left_zero {now : List (Nat × Str)} (h : Paging.Left children now 0) : now = children := by
  obtain ⟨front, hfront, rfl⟩ := h
  rw [List.take_zero, List.sublist_nil] at hfront
  simp [hfront]

/-- Where the next page begins: behind all that was returned. -/
theorem Progress.next (h : Progress g dirid parentId children p) (hnodup : (children.map Prod.fst).Nodup)
    (hzero : ∀ c ∈ children, c.1 ≠ 0) (hopen : p.ended = false) {maxEntries : Nat}
    (hcont : p.Continues g dirid (.call maxEntries)) :
    ∃ front, p.fs.listing g dirid parentId = front ++
        ((dirid, ['.']) :: (parentId, ['.', '.']) :: children).drop p.returned.length ∧
      (if p.startAfter = 0 then 0 else Paging.startIdx Prod.fst (p.fs.listing g dirid parentId) p.startAfter) =
        front.length := by
  obtain ⟨dir, hdir, -, hparent, -⟩ := h.dir
  have hdirid : dirid ≠ 0 := by
    rintro rfl
    rw [h.sound.zero] at hdir
    simp at hdir
  have hparentId : parentId ≠ 0 := by
    rintro rfl
    obtain ⟨m, hm, -⟩ := h.sound.wellFormed.parent dirid dir hdir
    rw [hparent, h.sound.zero] at hm
    simp at hm
  have hleft := h.left
  have hafter := startAfter_eq p
  rw [h.returned] at hafter
  rcases hcont with hended | hnil | ⟨dir', hdir', hone | ⟨htwo, hne⟩ | ⟨hmem, hself, hup⟩⟩
  · simp [hopen] at hended
  · rw [hnil] at hleft hafter ⊢
    refine ⟨[], ?_, if_pos hafter⟩
    unfold Fs.listing
    rw [left_zero hleft]
    rfl
  · rw [hone] at hleft hafter ⊢
    replace hafter : p.startAfter = dirid := hafter
    refine ⟨[(dirid, ['.'])], ?_, ?_⟩
    · unfold Fs.listing
      rw [left_zero hleft]
      rfl
    · rw [if_neg (hafter ▸ hdirid), hafter]
      exact Paging.startIdx_behind Prod.fst [] _ (dirid, ['.']) (by simp)
  · rw [htwo] at hleft hafter ⊢
    replace hafter : p.startAfter = parentId := hafter
    have hsame := (VfsManager.getNode_eq_some.mp hdir').1
    rw [hdir, Option.some.injEq] at hsame
    refine ⟨[(dirid, ['.']), (parentId, ['.', '.'])], ?_, ?_⟩
    · unfold Fs.listing
      rw [left_zero hleft]
      rfl
    · rw [if_neg (hafter ▸ hparentId), hafter]
      refine Paging.startIdx_behind Prod.fst [(dirid, ['.'])] _ (parentId, ['.', '.']) ?_
      intro x hx
      rw [List.mem_singleton.mp hx, ← hparent, hsame]
      exact hne.symm
  · have hsame := (VfsManager.getNode_eq_some.mp hdir').1
    rw [hdir, Option.some.injEq] at hsame
    rw [← hsame, hparent] at hup
    obtain ⟨k, hk⟩ : ∃ k, p.returned.length = k + 2 := by
      rcases hlen : p.returned.length with _ | _ | k
      · rw [hlen] at hafter
        obtain ⟨c, hc, hkey⟩ := List.mem_map.mp hmem
        obtain ⟨dir₂, hdir₂, hisDir, -⟩ := h.dir
        exact absurd (hkey.trans hafter) ((Fs.children_ids h.sound hdir₂ hisDir).2 c hc)
      · rw [hlen] at hafter
        exact absurd hafter hself
      · exact ⟨k, rfl⟩
    rw [hk] at hleft hafter ⊢
    simp only [List.take_succ_cons, List.drop_succ_cons, Nat.add_sub_cancel] at hleft hafter ⊢
    cases hlast : (children.take k).getLast? with
    | none =>
      rw [List.getLast?_eq_none_iff.mp hlast] at hafter
      exact absurd hafter hup
    | some last =>
      have hkey : p.startAfter = last.1 := by
        rw [hafter, List.getLast?_cons_cons, List.getLast?_cons, hlast]
        rfl
      rw [hkey] at hmem hself hup ⊢
      obtain ⟨front, hnow, hfirst⟩ := hleft.behind_last hnodup hlast hmem
      refine ⟨(dirid, ['.']) :: (parentId, ['.', '.']) :: (front ++ [last]), ?_, ?_⟩
      · unfold Fs.listing
        rw [hnow]
        simp
      · have hmemc : last ∈ children := List.mem_of_mem_take (List.mem_of_getLast? hlast)
        rw [if_neg (hzero last hmemc)]
        unfold Fs.listing
        rw [hnow]
        have hplace := Paging.startIdx_behind Prod.fst ((dirid, ['.']) :: (parentId, ['.', '.']) :: front)
          (children.drop k) last (by
            simp only [List.forall_mem_cons]
            exact ⟨hself.symm, hup.symm, hfirst⟩)
        rw [List.cons_append, List.cons_append] at hplace
        rw [hplace]
        simp

/-- A call that continues behind what was returned returns what follows it. -/
theorem Progress.call (h : Progress g dirid parentId children p) (hnodup : (children.map Prod.fst).Nodup)
    (hzero : ∀ c ∈ children, c.1 ≠ 0) {maxEntries : Nat} (hmax : 1 ≤ maxEntries)
    (hcont : p.Continues g dirid (.call maxEntries)) (hstep : p.step g dirid (.call maxEntries) = some p') :
    Progress g dirid parentId children p' := by
  unfold step at hstep
  simp only at hstep
  cases hended : p.ended with
  | true =>
    rw [hended, if_pos rfl] at hstep
    cases hstep
    refine ⟨h.sound, h.dir, h.returned, h.left, fun hopen => ?_, fun _ => h.ended hended⟩
    simp at hopen
  | false =>
    rw [hended, if_neg Bool.false_ne_true] at hstep
    obtain ⟨front, hlisting, hstart⟩ := h.next hnodup hzero hended hcont
    obtain ⟨dir, hdir, hisDir, hparent, hlive⟩ := h.dir
    have halive : p.fs.vfs.getNode dirid = some dir := by
      rcases hcont with hend | hnil | ⟨dir', hdir', -⟩
      · simp [hended] at hend
      · exact VfsManager.getNode_eq_some.mpr ⟨hdir, hlive hnil⟩
      · have hsame := (VfsManager.getNode_eq_some.mp hdir').1
        rw [hdir, Option.some.injEq] at hsame
        exact hsame ▸ hdir'
    obtain ⟨v₁, hpop⟩ := Fs.ensureDirPopulated_live (g := g) hdir hisDir
    obtain ⟨entries, ended, hread, hpage⟩ := Fs.readdir_ok (g := g) halive hisDir p.startAfter maxEntries
    rw [hparent, hstart, hlisting, Paging.page_behind] at hpage
    rw [hread, hpop] at hstep
    cases hstep
    obtain ⟨hentries, hend⟩ := Prod.mk.inj hpage
    have hopen := h.calls hended
    have hlength : entries.length = min maxEntries (children.length + 2 - p.returned.length) := by
      rw [← List.length_map DirEntry.key, hentries, List.length_take, List.length_drop]
      rfl
    have hs₁ := h.sound.populated (g := g) dirid
    have ht := VfsManager.ensureDirPopulated_tracks (g := g) h.sound.wellFormed dirid
    rw [hpop] at hs₁ ht
    refine ⟨hs₁, ⟨dir, ht.nodes dirid dir hdir, hisDir, hparent, fun hnil => ?_⟩, ?_, ?_, fun hnot => ?_, fun hyes => ?_⟩
    · exact hlive (List.append_eq_nil_iff.mp hnil).1
    · rw [List.map_append, h.returned, hentries, List.length_append, List.take_add]
      congr 1
      rw [hlength, List.take_eq_take_iff, List.length_drop]
      simp only [List.length_cons]
      omega
    · have hsame : Fs.children g (p.fs.setVfs v₁) dirid = p.fs.children g dirid := Fs.children_populated hpop
      rw [hsame, List.length_append]
      exact h.left.mono (by omega)
    · replace hnot : ended = false := hnot
      rw [hnot, eq_comm, decide_eq_false_iff_not, List.length_drop] at hend
      simp only [List.length_cons, List.length_append] at hend ⊢
      omega
    · replace hyes : ended = true := hyes
      rw [hyes, eq_comm, decide_eq_true_eq, List.length_drop] at hend
      simp only [List.length_cons, List.length_append] at hend ⊢
      omega

/-- In a run in which every call continues where it should, the entries that are returned are the listing of the
start without its end, and the whole of it once there were as many calls. -/
theorem readdir_run_exact (g : GitEngine) (fs : Fs) (hr : fs.Reached) (dirid : Nat) (dir : VfsNode)
    (hdir : fs.vfs.getNode dirid = some dir) (hisDir : dir.isDir = true) (events : List DirReadEvent) (p : DirRead)
    (hallowed : Run.Meets (step g dirid) (Allowed g dirid) (start fs) events)
    (hcont : Run.Meets (step g dirid) (Continues g dirid) (start fs) events)
    (hrun : Run.run (step g dirid) (start fs) events = some p) :
    (p.returned.map DirEntry.key <+: fs.listing g dirid dir.parentId) ∧
      (p.ended = true → p.returned.map DirEntry.key = fs.listing g dirid dir.parentId) ∧
      ((fs.listing g dirid dir.parentId).length ≤ p.calls → p.ended = true) ∧
      ((fs.children g dirid).map Prod.fst).Nodup ∧
      ∀ i name, (fs.vfs.ensureDirPopulated g dirid).2.liveChild dirid name = some i →
        fs.staging.isDeleted i = false → (i, name) ∈ fs.children g dirid := by
  have hs := hr.sound
  have hnode := (VfsManager.getNode_eq_some.mp hdir).1
  obtain ⟨hnodup, hzero⟩ := Fs.children_ids (g := g) hs hnode hisDir
  obtain ⟨v₁, hpop⟩ := Fs.ensureDirPopulated_live (g := g) hnode hisDir
  have hprogress : Progress g dirid dir.parentId (fs.children g dirid) p := by
    refine Run.invariant ?_ (Run.meets_and hallowed hcont) hrun (.start hs hdir hisDir)
    rintro p event p' h ⟨hallow, hcont⟩ hstep
    cases event with
    | call maxEntries => exact h.call hnodup hzero hallow hcont hstep
    | removed now filename => exact h.removed hnodup hallow hstep
  refine ⟨?_, fun hended => ?_, fun hcalls => ?_, hnodup, fun i name hlive hdel => ?_⟩
  · rw [hprogress.returned]
    exact List.take_prefix _ _
  · rw [hprogress.returned, hprogress.ended hended]
    exact List.take_of_length_le (Nat.le_refl _)
  · by_contra hopen
    obtain ⟨hle, hlt⟩ := hprogress.calls (by simpa using hopen)
    simp only [Fs.listing, List.length_cons] at hcalls
    omega
  · rw [hpop] at hlive
    exact Fs.mem_children hs hpop hlive hdel

/-! ## Runs on the root -/

instance (g : GitEngine) (dirid : Nat) (p : DirRead) (event : DirReadEvent) : Decidable (p.Allowed g dirid event) :=
  match event with
  | .call maxEntries => inferInstanceAs (Decidable (1 ≤ maxEntries))
  | .removed _ filename =>
    match h : (p.fs.vfs.ensureDirPopulated g dirid).2.childMap (dirid, fromUtf8Lossy filename) with
    | some i => decidable_of_iff (i ∈ (p.returned.drop 2).map DirEntry.fileid) (by simp [Allowed, h])
    | none => .isTrue (by simp [Allowed, h])

instance (g : GitEngine) (dirid : Nat) (p : DirRead) (event : DirReadEvent) : Decidable (p.Continues g dirid event) :=
  match event with
  | .call _ =>
    match h : p.fs.vfs.getNode dirid with
    | some dir => decidable_of_iff (p.ended = true ∨ p.returned = [] ∨ p.returned.length = 1 ∨
        (p.returned.length = 2 ∧ dir.parentId ≠ dirid) ∨
          (p.startAfter ∈ (p.fs.children g dirid).map Prod.fst ∧ p.startAfter ≠ dirid ∧ p.startAfter ≠ dir.parentId))
        (by simp [Continues, h])
    | none => decidable_of_iff (p.ended = true ∨ p.returned = []) (by simp [Continues, h])
  | .removed _ _ => .isTrue trivial

/-- Of three files the first is removed between two pages. -/
def steadyRun : List DirReadEvent := [.call 4, .removed 0 [0x66], .call 4]

theorem readdir_run_exact_files :
    ∃ fs p, Fs.Reached fs ∧ Run.run (step Fs.noteBase 1) (start fs) steadyRun = some p ∧ p.ended = true ∧
      p.returned.map DirEntry.key = [(1, ['.']), (1, ['.', '.']), (2, ['f']), (3, ['g']), (4, ['h'])] := by
  have hone : Fs.Reached _ := .answered Fs.noteBase 0 none (.create 1 [0x67]) (.new ['r']) rfl
  have htwo : Fs.Reached _ := .answered Fs.noteBase 0 none (.create 1 [0x68]) hone rfl
  refine ⟨_, _, htwo, rfl, rfl, ?_⟩
  exact (readdir_run_exact Fs.noteBase _ htwo 1 _ rfl rfl steadyRun _
    (Run.meets_of_check (fun _ _ h => of_decide_eq_true h) rfl)
    (Run.meets_of_check (fun _ _ h => of_decide_eq_true h) rfl) rfl).2.1 rfl

/-- A directory that is its own parent, read up to its own file id. -/
structure Stuck (g : GitEngine) (dirid : Nat) (p : DirRead) : Prop where
  sound : p.fs.Sound
  dir : ∃ dir, p.fs.vfs.getNode dirid = some dir ∧ dir.isDir = true ∧ dir.parentId = dirid
  children : p.fs.children g dirid ≠ []
  after : p.startAfter = dirid
  ended : p.ended = false

/-- The next page of one entry is `..` again. -/
theorem Stuck.step (h : Stuck g dirid p) : ∃ p', p.step g dirid (.call 1) = some p' ∧ Stuck g dirid p' := by
  obtain ⟨dir, hdir, hisDir, hparent⟩ := h.dir
  have hnode := (VfsManager.getNode_eq_some.mp hdir).1
  have hdirid : dirid ≠ 0 := by
    rintro rfl
    rw [h.sound.zero] at hnode
    simp at hnode
  obtain ⟨v₁, hpop⟩ := Fs.ensureDirPopulated_live (g := g) hnode hisDir
  obtain ⟨entries, ended, hread, hpage⟩ := Fs.readdir_ok (g := g) hdir hisDir p.startAfter 1
  have hplace := Paging.startIdx_behind Prod.fst [] ((dir.parentId, ['.', '.']) :: p.fs.children g dirid)
    (dirid, ['.']) (by simp)
  have hcut := Paging.page_behind [(dirid, ['.'])] ((dir.parentId, ['.', '.']) :: p.fs.children g dirid) 1
  rw [h.after, if_neg hdirid] at hpage
  unfold Fs.listing at hpage
  rw [List.nil_append] at hplace
  rw [hplace] at hpage
  obtain ⟨hentries, hend⟩ := Prod.mk.inj (hpage.trans hcut)
  obtain ⟨e, rfl, hkey⟩ := List.map_eq_singleton_iff.mp hentries
  have hs₁ := h.sound.populated (g := g) dirid
  have ht := VfsManager.ensureDirPopulated_tracks (g := g) h.sound.wellFormed dirid
  rw [hpop] at hs₁ ht
  refine ⟨_, by unfold DirRead.step; simp only [h.ended, hread, hpop]; rfl, hs₁, ⟨dir, ?_, hisDir, hparent⟩, ?_, ?_, ?_⟩
  · obtain ⟨hold, hlive⟩ := VfsManager.getNode_eq_some.mp hdir
    exact VfsManager.getNode_eq_some.mpr ⟨ht.nodes dirid dir hold, hlive⟩
  · have hsame := Fs.children_populated hpop
    exact hsame ▸ h.children
  · unfold startAfter
    rw [List.getLast?_concat]
    exact (congrArg Prod.fst hkey).trans hparent
  · rw [hend, decide_eq_false_iff_not, List.length_cons]
    have := List.length_pos_iff.mpr h.children
    omega

theorem Stuck.never_ends (h : Stuck g dirid p) (n : Nat) :
    ∃ p', Run.run (DirRead.step g dirid) p (List.replicate n (.call 1)) = some p' ∧ p'.ended = false := by
  induction n generalizing p with
  | zero => exact ⟨p, rfl, h.ended⟩
  | succ n ih =>
    obtain ⟨p₁, hstep, hstuck⟩ := h.step
    obtain ⟨p', hrun, hopen⟩ := ih hstuck
    exact ⟨p', Run.run_cons.mpr ⟨p₁, hstep, hrun⟩, hopen⟩

/-- The root is its own parent: pages of one entry never come past `..`, and a page that ends with it is followed by
one that begins with it. A run that continues from a child that was removed starts again. -/
theorem readdir_starts_again :
    (∃ p, Run.run (step Fs.noteBase 1) (start (Fs.new ['r'])) [.call 2, .call 2] = some p ∧ p.ended = true ∧
      p.returned.map DirEntry.key = [(1, ['.']), (1, ['.', '.']), (1, ['.', '.']), (2, ['f'])]) ∧
    (∃ fs p, Fs.Reached fs ∧ Run.Meets (step Fs.noteBase 1) (Allowed Fs.noteBase 1) (start fs)
        [.call 3, .removed 0 [0x66], .call 3] ∧
      Run.run (step Fs.noteBase 1) (start fs) [.call 3, .removed 0 [0x66], .call 3] = some p ∧ p.ended = true ∧
      p.returned.map DirEntry.key =
        [(1, ['.']), (1, ['.', '.']), (2, ['f']), (1, ['.']), (1, ['.', '.']), (3, ['g'])]) ∧
    ∀ n, ∃ p, Run.run (step Fs.noteBase 1) (start (Fs.new ['r'])) (List.replicate n (.call 1)) = some p ∧
      p.ended = false := by
  refine ⟨⟨_, rfl, rfl, rfl⟩, ?_, fun n => ?_⟩
  · have hone : Fs.Reached _ := .answered Fs.noteBase 0 none (.create 1 [0x67]) (.new ['r']) rfl
    exact ⟨_, _, hone, Run.meets_of_check (fun _ _ h => of_decide_eq_true h) rfl, rfl, rfl, rfl⟩
  · cases n with
    | zero => exact ⟨_, rfl, rfl⟩
    | succ n =>
      have hreached : Fs.Reached _ := .readdir Fs.noteBase 1 0 1 (.new ['r'])
      obtain ⟨p₁, hfirst, hstuck⟩ : ∃ p₁, step Fs.noteBase 1 (start (Fs.new ['r'])) (.call 1) = some p₁ ∧
          Stuck Fs.noteBase 1 p₁ :=
        ⟨_, rfl, hreached.sound, ⟨_, rfl, rfl, rfl⟩, List.cons_ne_nil (2, ['f']) [], rfl, rfl⟩
      obtain ⟨p, hrun, hopen⟩ := hstuck.never_ends n
      exact ⟨p, Run.run_cons.mpr ⟨p₁, hfirst, hrun⟩, hopen⟩

end DirRead

end GitNfs
