import GitNfs.Nfs.Seen
import GitNfs.Vfs.WayBack

/-! # File systems that differ in their numbers

Two file systems with the same tree and the same staged files, where the second one may have asked for more
of its directories. A request that names the same inodes does the same to both.
-/

namespace GitNfs

namespace StagingStore

/-- What the store has of a node: the staging file, the size that is noted, and whether the node is deleted. -/
def held (st : StagingStore) (id : Nat) : Option Bytes × Option Nat × Bool :=
  (st.files id, st.getSize id, st.isDeleted id)

/-- Related nodes have the same, the others have nothing. -/
structure Twin (R : Nat → Nat → Prop) (s t : StagingStore) : Prop where
  same : ∀ i j, R i j → t.held j = s.held i
  left : ∀ i, (∀ j, ¬ R i j) → s.held i = (none, none, false)
  right : ∀ j, (∀ i, ¬ R i j) → t.held j = (none, none, false)

theorem stored_held (st : StagingStore) (id : Nat) (content : Bytes) (k : Nat) :
    (st.stored id content).held k =
      if k = id then (some content, some content.length, st.isDeleted id) else st.held k := by
  unfold held getSize
  rw [stored_files, stored_lookup, stored_isDeleted]
  split_ifs with hk
  · rw [hk]
  · rfl

theorem markDeleted_held (st : StagingStore) (id k : Nat) :
    (st.markDeleted id).held k = if k = id then (st.files id, st.getSize id, true) else st.held k := by
  have hdel : (st.markDeleted id).isDeleted k = (decide (k = id) || st.isDeleted k) := by
    unfold isDeleted markDeleted
    simp only [List.contains_eq_mem, List.mem_insert_iff, Bool.decide_or]
  unfold held
  rw [hdel]
  split_ifs with hk
  · subst hk
    simp [getSize, markDeleted]
  · simp [hk, getSize, markDeleted]

section

variable {R R' : Nat → Nat → Prop} {s t s' t' : StagingStore} {i j : Nat}

/-- Numbers that are new on either side have nothing yet. -/
theorem Twin.mono (h : Twin R s t) (hR : ∀ i j, R i j → R' i j) (hunique : Relator.BiUnique R') : Twin R' s t where
  same i j hij := by
    by_cases hi : ∃ j', R i j'
    · obtain ⟨j', hij'⟩ := hi
      rw [hunique.2 hij (hR _ _ hij')]
      exact h.same i j' hij'
    · have hj : ∀ i', ¬ R i' j := fun i' hij' => hi ⟨j, hunique.1 hij (hR _ _ hij') ▸ hij'⟩
      rw [h.right j hj, h.left i (not_exists.mp hi)]
  left i hi := h.left i fun j hij => hi j (hR _ _ hij)
  right j hj := h.right j fun i hij => hj i (hR _ _ hij)

/-- The same is put down for related nodes. -/
theorem Twin.put (h : Twin R s t) (hunique : Relator.BiUnique R) (hij : R i j) {a : Option Bytes × Option Nat × Bool}
    (hs : ∀ k, s'.held k = if k = i then a else s.held k) (ht : ∀ k, t'.held k = if k = j then a else t.held k) :
    Twin R s' t' where
  same x y hxy := by
    rw [hs, ht]
    by_cases hx : x = i
    · rw [if_pos hx, if_pos (hunique.2 (hx ▸ hxy) hij)]
    · have hy : y ≠ j := fun hy => hx (hunique.1 (hy ▸ hxy) hij)
      rw [if_neg hx, if_neg hy]
      exact h.same x y hxy
  left x hx := by
    rw [hs, if_neg]
    · exact h.left x hx
    · rintro rfl
      exact hx j hij
  right y hy := by
    rw [ht, if_neg]
    · exact h.right y hy
    · rintro rfl
      exact hy i hij

theorem Twin.isStaged (h : Twin R s t) (hij : R i j) : t.isStaged j = s.isStaged i := by
  have hsize := congrArg (fun a => a.2.1) (h.same i j hij)
  exact congrArg Option.isSome hsize

theorem Twin.isDeleted (h : Twin R s t) (hij : R i j) : t.isDeleted j = s.isDeleted i :=
  congrArg (fun a => a.2.2) (h.same i j hij)

theorem Twin.files (h : Twin R s t) (hij : R i j) : t.files j = s.files i := congrArg (fun a => a.1) (h.same i j hij)

theorem Twin.stored (h : Twin R s t) (hunique : Relator.BiUnique R) (hij : R i j) (content : Bytes) :
    Twin R (s.stored i content) (t.stored j content) := by
  refine h.put hunique hij (stored_held s i content) fun k => ?_
  rw [stored_held, h.isDeleted hij]

theorem Twin.markDeleted (h : Twin R s t) (hunique : Relator.BiUnique R) (hij : R i j) :
    Twin R (s.markDeleted i) (t.markDeleted j) := by
  have hsame := h.same i j hij
  refine h.put hunique hij (markDeleted_held s i) fun k => ?_
  rw [markDeleted_held]
  unfold held at hsame
  simp only [Prod.mk.injEq] at hsame
  rw [hsame.1, hsame.2.1]

end

end StagingStore

namespace Fs

/-- One file system and another one with more of its directories asked for. -/
structure Same (g : GitEngine) (R : Nat → Nat → Prop) (fs fs' : Fs) : Prop where
  sim : VfsManager.Sim g R fs.vfs fs'.vfs
  root : R rootInode rootInode
  staging : fs.staging.Twin R fs'.staging

/-- Two answers of one kind, and what they leave. -/
inductive Agree (g : GitEngine) (R : Nat → Nat → Prop) : Except NfsStat Unit × Fs → Except NfsStat Unit × Fs → Prop
  | ok {R' : Nat → Nat → Prop} {fs fs' : Fs} (hR : ∀ i j, R i j → R' i j) (h : Same g R' fs fs') :
    Agree g R (.ok (), fs) (.ok (), fs')
  | error {R' : Nat → Nat → Prop} {fs fs' : Fs} (e : NfsStat) (hR : ∀ i j, R i j → R' i j) (h : Same g R' fs fs') :
    Agree g R (.error e, fs) (.error e, fs')

section

variable {g : GitEngine} {R R' : Nat → Nat → Prop} {fs fs' : Fs} {d e i j : Nat}

theorem Same.unique (h : Same g R fs fs') : Relator.BiUnique R := h.sim.tables.unique

theorem Same.setVfs (h : Same g R fs fs') (hR : ∀ i j, R i j → R' i j) {v w : VfsManager}
    (hsim : VfsManager.Sim g R' v w) : Same g R' (fs.setVfs v) (fs'.setVfs w) :=
  ⟨hsim, hR _ _ h.root, h.staging.mono hR hsim.tables.unique⟩

theorem Same.alike_left (h : Same g R fs fs') {fs₁ : Fs} (halike : fs.Alike fs₁) : Same g R fs₁ fs' := by
  obtain ⟨_, _, _, rfl⟩ := halike
  exact ⟨h.sim, h.root, h.staging.same, h.staging.left, h.staging.right⟩

/-! ## A request on both -/

theorem Same.create (h : Same g R fs fs') (hde : R d e) (filename : Bytes) :
    Agree g R (fs.act g none (.create d filename)) (fs'.act g none (.create e filename)) := by
  have hmade := h.sim.createFile (.inl hde) (fromUtf8Lossy filename) .regularFile
  simp only [act]
  generalize fs.vfs.createFile g d _ _ = a at hmade ⊢
  generalize fs'.vfs.createFile g e _ _ = b at hmade ⊢
  cases hmade with
  | error hR hsim _ => exact .error .io hR (h.setVfs hR hsim)
  | ok hR hsim htwin =>
    simp only [StagingStore.createFile_ok]
    have hstaging := h.staging.mono hR hsim.tables.unique
    exact .ok hR ⟨hsim, hR _ _ h.root, hstaging.stored hsim.tables.unique htwin.id []⟩

theorem Same.mkdir (h : Same g R fs fs') (hde : R d e) (dirname : Bytes) :
    Agree g R (fs.act g none (.mkdir d dirname)) (fs'.act g none (.mkdir e dirname)) := by
  have hmade := h.sim.mkdir (.inl hde) (fromUtf8Lossy dirname)
  simp only [act]
  generalize fs.vfs.mkdir g d _ = a at hmade ⊢
  generalize fs'.vfs.mkdir g e _ = b at hmade ⊢
  cases hmade with
  | error hR hsim _ => exact .error .io hR (h.setVfs hR hsim)
  | ok hR hsim _ => exact .ok hR (h.setVfs hR hsim)

theorem Same.remove (h : Same g R fs fs') (hde : R d e) (filename : Bytes) :
    Agree g R (fs.act g none (.remove d filename)) (fs'.act g none (.remove e filename)) := by
  have hgone := h.sim.remove (.inl hde) (fromUtf8Lossy filename)
  simp only [act]
  generalize fs.vfs.remove g d _ = a at hgone ⊢
  generalize fs'.vfs.remove g e _ = b at hgone ⊢
  cases hgone with
  | error hR hsim _ => exact .error .noent hR (h.setVfs hR hsim)
  | ok hR hsim htwin =>
    have hstaging := h.staging.mono hR hsim.tables.unique
    exact .ok hR ⟨hsim, hR _ _ h.root, hstaging.markDeleted hsim.tables.unique htwin.id⟩

theorem Same.rename (h : Same g R fs fs') {td te : Nat} (hde : R d e) (hto : R td te)
    (fromFilename toFilename : Bytes) :
    Agree g R (fs.act g none (.rename d fromFilename td toFilename))
      (fs'.act g none (.rename e fromFilename te toFilename)) := by
  obtain ⟨R₁, hR₁, -, hboth⟩ := h.sim.rename (.inl hde) (fromUtf8Lossy fromFilename) (fromUtf8Lossy toFilename)
  have hmoved := hboth td te (.inl (hR₁ _ _ hto))
  simp only [act, applyRename]
  generalize fs.vfs.rename g d _ td _ = a at hmoved ⊢
  generalize fs'.vfs.rename g e _ te _ = b at hmoved ⊢
  cases hmoved with
  | error hR hsim _ =>
    have hR' := fun i j hij => hR i j (hR₁ i j hij)
    exact .error .io hR' (h.setVfs hR' hsim)
  | ok hR hsim _ =>
    have hR' := fun i j hij => hR i j (hR₁ i j hij)
    exact .ok hR' (h.setVfs hR' hsim)

theorem Same.liveNode (h : Same g R fs fs') (hij : R i j) :
    (∃ n m, fs.liveNode i = .ok n ∧ fs'.liveNode j = .ok m ∧ n.Twin R m) ∨
      fs.liveNode i = .error .noent ∧ fs'.liveNode j = .error .noent := by
  have hnode := h.sim.tables.getNode hij
  unfold Fs.liveNode
  rw [h.staging.isDeleted hij]
  split_ifs
  · exact .inr ⟨rfl, rfl⟩
  · generalize fs.vfs.getNode i = a at hnode ⊢
    generalize fs'.vfs.getNode j = b at hnode ⊢
    cases hnode with
    | none => exact .inr ⟨rfl, rfl⟩
    | some htwin => exact .inl ⟨_, _, rfl, rfl, htwin⟩

theorem Same.baseData (h : Same g R fs fs') {n m : VfsNode} (htwin : n.Twin R m) :
    Replay.baseData g fs'.staging m = Replay.baseData g fs.staging n := by
  unfold Replay.baseData
  rw [h.staging.isStaged htwin.id, htwin.oid]

/-- New content of a file, and its size. -/
theorem Same.store (h : Same g R fs fs') (hij : R i j) (content : Bytes) (size : Nat) :
    Same g R { fs with staging := fs.staging.stored i content, vfs := fs.vfs.updateFileSize i size }
      { fs' with staging := fs'.staging.stored j content, vfs := fs'.vfs.updateFileSize j size } := by
  refine ⟨⟨h.sim.left.updateFileSize i size, h.sim.right.updateFileSize j size, ?_⟩, h.root,
    h.staging.stored h.unique hij content⟩
  refine h.sim.tables.modify hij fun n m _ _ htwin => ⟨⟨htwin.id, htwin.parent, ?_⟩, rfl⟩
  rw [← htwin.rest]

theorem Same.write (h : Same g R fs fs') (hij : R i j) (offset : Nat) (data : Bytes) :
    Agree g R (fs.act g none (.write i offset data)) (fs'.act g none (.write j offset data)) := by
  simp only [act, applyWrite]
  rcases h.liveNode hij with ⟨n, m, hn, hm, htwin⟩ | ⟨hn, hm⟩
  · simp only [hn, hm, htwin.isDir]
    split_ifs
    · exact .error .isdir (fun _ _ h => h) h
    · have hopened : fs'.staging.opened j (Replay.baseData g fs'.staging m) =
          fs.staging.opened i (Replay.baseData g fs.staging n) := by
        unfold StagingStore.opened
        rw [h.staging.files hij, h.baseData htwin]
      simp only [StagingStore.writeAt_ok, hopened]
      exact .ok (fun _ _ h => h) (h.store hij _ _)
  · simp only [hn, hm]
    exact .error .noent (fun _ _ h => h) h

theorem Same.setSize (h : Same g R fs fs') (hij : R i j) (size : Nat) :
    Agree g R (fs.act g none (.setattr i (some size))) (fs'.act g none (.setattr j (some size))) := by
  simp only [act, applySetSize]
  rcases h.liveNode hij with ⟨n, m, hn, hm, htwin⟩ | ⟨hn, hm⟩
  · simp only [hn, hm, htwin.isDir]
    split_ifs
    · exact .error .isdir (fun _ _ h => h) h
    · have hopened : fs'.staging.opened j (Replay.baseData g fs'.staging m) =
          fs.staging.opened i (Replay.baseData g fs.staging n) := by
        unfold StagingStore.opened
        rw [h.staging.files hij, h.baseData htwin]
      simp only [StagingStore.truncate_ok, hopened]
      exact .ok (fun _ _ h => h) (h.store hij _ _)
  · simp only [hn, hm]
    exact .error .noent (fun _ _ h => h) h

/-! ## Asking for more -/

theorem Same.ask (h : Same g R fs fs') (e : Nat) :
    Same g R fs (fs'.setVfs (fs'.vfs.ensureDirPopulated g e).2) := ⟨h.sim.ensure_right e, h.root, h.staging⟩

theorem Same.look (h : Same g R fs fs') (e : Nat) (name : Str) :
    Same g R fs (fs'.setVfs (fs'.vfs.lookup g e name).2) := by
  rcases VfsManager.lookup_state (g := g) h.sim.right e name with heq | heq <;> rw [heq]
  · exact ⟨h.sim, h.root, h.staging⟩
  · exact h.ask e

theorem Same.follow (h : Same g R fs fs') (path : Str) : Same g R fs (fs'.setVfs (fs'.vfs.lookupPath g path).2) :=
  ⟨h.sim.follow_right path, h.root, h.staging⟩

/-- The second one is asked for what the first one has come to ask for. -/
theorem Same.ask_both (h : Same g R fs fs') (d : Nat) :
    ∃ R' e, Same g R' (fs.setVfs (fs.vfs.ensureDirPopulated g d).2)
      (fs'.setVfs (fs'.vfs.ensureDirPopulated g e).2) := by
  cases hd : fs.vfs.nodes d with
  | none =>
    rw [VfsManager.ensureDirPopulated_missing h.sim.left hd]
    exact ⟨R, 0, h.ask 0⟩
  | some n =>
    obtain ⟨e, hde⟩ := h.sim.twin hd
    obtain ⟨R', v, w, hR, hsim, -, hv, hw⟩ | ⟨err, err', -, hv, hw⟩ := h.sim.ensure (.inl hde)
    · rw [hv]
      refine ⟨R', e, ?_⟩
      rw [hw]
      exact h.setVfs hR hsim
    · rw [hv]
      exact ⟨R, e, h.ask e⟩

end

/-! ## What is found on a path -/

/-- What a client finds at an inode: its kind, and the bytes of a file. -/
structure Found where
  mode : TreeEntryMode
  isDir : Bool
  bytes : Option Bytes
  deriving DecidableEq, Repr

def found (g : GitEngine) (fs : Fs) (node : VfsNode) : Found :=
  ⟨node.mode, node.isDir, if node.isDir then none else fs.fileBytes g node.id node.oid⟩

/-- What a directory lists, name by name. -/
def listed (g : GitEngine) (fs : Fs) (id : Nat) : List (Str × Found) :=
  match (fs.vfs.listDir g id).1 with
  | .error _ => []
  | .ok children => (children.filter fun c => !fs.staging.isDeleted c.id).map fun c => (c.name, fs.found g c)

/-- Lookups from an inode down, name by name. -/
def descend (g : GitEngine) : Fs → Nat → List Str → Option (Nat × Fs)
  | fs, id, [] => some (id, fs)
  | fs, id, name :: names =>
    match fs.vfs.lookup g id name with
    | (.error _, _) => none
    | (.ok child, vfs) => if fs.staging.isDeleted child then none else descend g (fs.setVfs vfs) child names

/-- What lookups find at the end of a path, and what it lists there. -/
def foundAt (g : GitEngine) (fs : Fs) (path : List Str) : Option (Found × List (Str × Found)) :=
  (fs.descend g rootInode path).bind fun there =>
    (there.2.vfs.getNode there.1).map fun node => (there.2.found g node, there.2.listed g there.1)

section

variable {g : GitEngine} {R R' : Nat → Nat → Prop} {fs fs' : Fs} {i j : Nat}

theorem Same.found (h : Same g R fs fs') {n m : VfsNode} (htwin : n.Twin R m) : fs'.found g m = fs.found g n := by
  have hmode : m.mode = n.mode := by rw [← htwin.rest]
  have hbytes : fs'.fileBytes g m.id m.oid = fs.fileBytes g n.id n.oid := by
    unfold fileBytes
    rw [h.staging.isStaged htwin.id, h.staging.files htwin.id, htwin.oid]
  unfold Fs.found
  rw [hmode, htwin.isDir, hbytes]

theorem Same.children (h : Same g R fs fs') {ns ms : List VfsNode} (hall : List.Forall₂ (VfsNode.Twin R) ns ms) :
    ((ms.filter fun c => !fs'.staging.isDeleted c.id).map fun c => (c.name, fs'.found g c)) =
      (ns.filter fun c => !fs.staging.isDeleted c.id).map fun c => (c.name, fs.found g c) := by
  induction hall with
  | nil => rfl
  | @cons n m ns ms htwin _ ih =>
    rw [List.filter_cons, List.filter_cons, h.staging.isDeleted htwin.id]
    split_ifs
    · rw [List.map_cons, List.map_cons, ih, htwin.name, h.found htwin]
    · exact ih

theorem Same.listed (h : Same g R fs fs') (hij : R i j) : fs'.listed g j = fs.listed g i := by
  have hboth := h.sim.listDir (.inl hij)
  unfold Fs.listed
  generalize fs.vfs.listDir g i = a at hboth ⊢
  generalize fs'.vfs.listDir g j = b at hboth ⊢
  cases hboth with
  | error _ _ _ => rfl
  | ok hR hsim hall =>
    simp only
    exact (h.setVfs hR hsim).children hall

theorem Same.descend (h : Same g R fs fs') (hij : R i j) (path : List Str) :
    fs.descend g i path = none ∧ fs'.descend g j path = none ∨
      ∃ R' k l fs₁ fs₁', fs.descend g i path = some (k, fs₁) ∧ fs'.descend g j path = some (l, fs₁') ∧
        Same g R' fs₁ fs₁' ∧ R' k l := by
  induction path generalizing fs fs' i j R with
  | nil => exact .inr ⟨R, i, j, fs, fs', rfl, rfl, h, hij⟩
  | cons name path ih =>
    have hboth : VfsManager.Both g R (fun R i j => R i j) (fs.vfs.lookup g i name) (fs'.vfs.lookup g j name) :=
      h.sim.lookup (.inl hij) (.inl hij)
    rw [Fs.descend, Fs.descend]
    generalize fs.vfs.lookup g i name = a at hboth ⊢
    generalize fs'.vfs.lookup g j name = b at hboth ⊢
    cases hboth with
    | error _ _ _ => exact .inl ⟨rfl, rfl⟩
    | ok hR hsim hxy =>
      have hnext := h.setVfs hR hsim
      simp only
      rw [show fs'.staging.isDeleted _ = fs.staging.isDeleted _ from hnext.staging.isDeleted hxy]
      split_ifs
      · exact .inl ⟨rfl, rfl⟩
      · exact ih hnext hxy

/-- The numbers are all that differs. -/
theorem Same.foundAt (h : Same g R fs fs') (path : List Str) : fs'.foundAt g path = fs.foundAt g path := by
  unfold Fs.foundAt
  rcases h.descend h.root path with ⟨hv, hw⟩ | ⟨R', k, l, fs₁, fs₁', hv, hw, hend, hkl⟩
  · rw [hv, hw]
  · rw [hv, hw]
    simp only [Option.bind_some]
    have hnode := hend.sim.tables.getNode hkl
    rw [hend.listed hkl]
    generalize fs₁.vfs.getNode k = a at hnode ⊢
    generalize fs₁'.vfs.getNode l = b at hnode ⊢
    cases hnode with
    | none => rfl
    | some htwin => rw [Option.map_some, Option.map_some, hend.found htwin]

end

end Fs

end GitNfs
