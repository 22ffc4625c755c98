import GitNfs.Durability
import GitNfs.Nfs.Clients

/-! # What a client sees of a commit

A commit empties the staging store and puts its objects into the engine, and the inodes stay as they are. What a
client sees of a file afterwards is the blob that its inode names.
-/

namespace GitNfs

/-! ## What a commit puts into the engine -/

namespace GitEngine

/-- The bytes of a blob, and no other length is known for it. -/
def Serves (g : GitEngine) (oid : Str) (b : Bytes) : Prop :=
  g.blobs oid = some b ∧ ∀ len, g.cachedLen oid = some len → len = b.length

variable {g : GitEngine} {dirLen : Option Nat} {commitOid rootTreeOid oid : Str} {objects : List GitObjectToPack}

theorem applyObject_tree {o : GitObjectToPack} {t : GitTree} (ht : g.trees oid = some t)
    (ho : o.objType = .tree → o.oid = oid → GitTree.parse o.data = .ok t) :
    (applyObject dirLen g o).trees oid = some t := by
  unfold applyObject
  split
  · rename_i htype
    split
    · rename_i t' hparse
      simp only [Function.update_apply]
      split_ifs with hoid
      · rw [ho htype hoid.symm, Except.ok.injEq] at hparse
        rw [hparse]
      · exact ht
    · exact ht
  · exact ht
  · exact ht

theorem applyObject_serves {o : GitObjectToPack} {b : Bytes} (hb : g.Serves oid b)
    (ho : o.objType = .blob → o.oid = oid → o.data = b) : (applyObject dirLen g o).Serves oid b := by
  unfold applyObject
  split
  · split <;> exact hb
  · rename_i htype
    unfold Serves
    simp only [Function.update_apply]
    split_ifs with hoid
    · rw [ho htype hoid.symm]
      exact ⟨rfl, fun len hlen => (Option.some.inj hlen).symm⟩
    · exact hb
  · exact hb

theorem applyObject_blob {o : GitObjectToPack} (ho : o.objType = .blob → o.oid ≠ oid) :
    (applyObject dirLen g o).blobs oid = g.blobs oid ∧ (applyObject dirLen g o).cachedLen oid = g.cachedLen oid := by
  unfold applyObject
  split
  · split <;> exact ⟨rfl, rfl⟩
  · rename_i htype
    simp only [Function.update_of_ne (ho htype).symm, and_self]
  · exact ⟨rfl, rfl⟩

theorem applyObject_dirLen {o : GitObjectToPack} {len : Option Nat} (hlen : g.blobsDirLen = len)
    (ho : o.objType = .blob → dirLen = len) : (applyObject dirLen g o).blobsDirLen = len := by
  unfold applyObject
  split
  · split <;> exact hlen
  · rename_i htype
    exact ho htype
  · exact hlen

/-- What every object keeps all of them keep. -/
theorem applyRecoveredObjects_keeps {I : GitEngine → Prop}
    (hg : I { g with commitOid := some commitOid, rootTreeOid := some rootTreeOid })
    (hstep : ∀ o ∈ objects, ∀ g', I g' → I (applyObject dirLen g' o)) :
    I (g.applyRecoveredObjects dirLen commitOid rootTreeOid objects) := by
  unfold applyRecoveredObjects
  exact List.foldlRecOn (motive := I) objects _ hg fun g' hg' o ho => hstep o ho g' hg'

/-- A tree that is there stays, if no object has its id and another text. -/
theorem applyRecoveredObjects_tree {t : GitTree} (ht : g.trees oid = some t)
    (ho : ∀ o ∈ objects, o.objType = .tree → o.oid = oid → GitTree.parse o.data = .ok t) :
    (g.applyRecoveredObjects dirLen commitOid rootTreeOid objects).trees oid = some t := by
  refine applyRecoveredObjects_keeps (I := fun g => g.trees oid = some t) ht fun o hmem g' hg' => ?_
  exact applyObject_tree hg' (ho o hmem)

theorem applyRecoveredObjects_serves {b : Bytes} (hb : g.Serves oid b)
    (ho : ∀ o ∈ objects, o.objType = .blob → o.oid = oid → o.data = b) :
    (g.applyRecoveredObjects dirLen commitOid rootTreeOid objects).Serves oid b := by
  refine applyRecoveredObjects_keeps (I := fun g => g.Serves oid b) hb fun o hmem g' hg' => ?_
  exact applyObject_serves hg' (ho o hmem)

theorem applyRecoveredObjects_blob (ho : ∀ o ∈ objects, o.objType = .blob → o.oid ≠ oid) :
    (g.applyRecoveredObjects dirLen commitOid rootTreeOid objects).blobs oid = g.blobs oid ∧
      (g.applyRecoveredObjects dirLen commitOid rootTreeOid objects).cachedLen oid = g.cachedLen oid := by
  refine applyRecoveredObjects_keeps (I := fun g' => g'.blobs oid = g.blobs oid ∧ g'.cachedLen oid = g.cachedLen oid)
    ⟨rfl, rfl⟩ fun o hmem g' hg' => ?_
  have hone : (applyObject dirLen g' o).blobs oid = g'.blobs oid ∧
      (applyObject dirLen g' o).cachedLen oid = g'.cachedLen oid := applyObject_blob (ho o hmem)
  exact ⟨hone.1.trans hg'.1, hone.2.trans hg'.2⟩

theorem applyRecoveredObjects_dirLen (ho : ∀ o ∈ objects, o.objType = .blob → dirLen = g.blobsDirLen) :
    (g.applyRecoveredObjects dirLen commitOid rootTreeOid objects).blobsDirLen = g.blobsDirLen := by
  refine applyRecoveredObjects_keeps (I := fun g' => g'.blobsDirLen = g.blobsDirLen) rfl fun o hmem g' hg' => ?_
  exact applyObject_dirLen hg' (ho o hmem)

end GitEngine

/-! ## When it is not seen -/

namespace Fs

variable {g : GitEngine} {fs : Fs} {dirLen : Option Nat} {objects : List GitObjectToPack}

/-- A file of which nothing is lost with the staging store: what is staged is the blob that the inode names
already, and where the inode names none the directory of the disk cache keeps its length. An object with the id
of the file is its blob. -/
structure KeepsFile (g : GitEngine) (fs : Fs) (dirLen : Option Nat) (objects : List GitObjectToPack) (id : Nat)
    (node : VfsNode) : Prop where
  staged : fs.staging.isStaged id = true → ∃ b, fs.staging.files id = some b ∧
    fs.staging.getSize id = some b.length ∧ node.oid ≠ [] ∧ g.Serves node.oid b
  unnamed : fs.staging.isStaged id = false → node.oid = [] → ∀ o ∈ objects, o.objType = .blob → dirLen = g.blobsDirLen
  packed : ∀ o ∈ objects, o.objType = .blob → o.oid = node.oid → g.Serves node.oid o.data

/-- Every file that a path leads to is kept, and no object has the id of another tree. -/
structure Keeps (g : GitEngine) (fs : Fs) (dirLen : Option Nat) (objects : List GitObjectToPack) : Prop where
  trees : ∀ o ∈ objects, o.objType = .tree → ∀ t, g.getTree o.oid = some t → GitTree.parse o.data = .ok t
  files : ∀ path id node opened, fs.Opens g path id node opened → fs.KeepsFile g dirLen objects id node

/-- No file is left in the staging directory for a file that a path leads to and that is not staged. -/
def NothingLeft (g : GitEngine) (fs : Fs) : Prop :=
  ∀ path id node opened, fs.Opens g path id node opened → fs.staging.isStaged id = false → fs.staging.files id = none

theorem NothingLeft.invisible (h : fs.NothingLeft g) (hs : fs.Sound) : Invisible g g fs fs := by
  intro path id fs₁ hres
  refine ⟨fs₁, hres, fun node hn hdir => ?_⟩
  obtain ⟨hs₁, hst⟩ := resolve_kept (g := g) hs rootInode path
  rw [hres] at hs₁ hst
  simp only at hs₁ hst
  refine sameFile_of hs₁ hs₁ hn hn (.refl node) hdir rfl rfl fun hunstaged => ?_
  rw [hst] at hunstaged ⊢
  exact h path id node fs₁ ⟨hres, hn, hdir⟩ hunstaged

theorem getSize_staged {st : StagingStore} {id : Nat} : st.getSize id = none ↔ st.isStaged id = false := by
  unfold StagingStore.getSize StagingStore.isStaged
  cases st.stagedNodes.lookup id <;> simp

variable {g' : GitEngine} {fs' : Fs} {commitOid rootTreeOid : Str} {id : Nat} {n n' : VfsNode}

theorem KeepsFile.serves (h : fs.KeepsFile g dirLen objects id n)
    (hg' : g' = g.applyRecoveredObjects dirLen commitOid rootTreeOid objects) {b : Bytes} (hb : g.Serves n.oid b) :
    g'.Serves n.oid b := by
  rw [hg']
  refine GitEngine.applyRecoveredObjects_serves hb fun o ho htype heq => ?_
  exact Option.some.inj ((h.packed o ho htype heq).1.symm.trans hb.1)

/-- The bytes of a file are those of its blob when nothing is staged any more. -/
theorem KeepsFile.bytes (h : fs.KeepsFile g dirLen objects id n)
    (hg' : g' = g.applyRecoveredObjects dirLen commitOid rootTreeOid objects) (hcleared : fs'.staging = StagingStore.new) :
    fs'.fileBytes g' id n.oid = fs.fileBytes g id n.oid := by
  have hafter : fs'.fileBytes g' id n.oid = blobBytes g' n.oid := by
    unfold fileBytes
    rw [hcleared]
    rfl
  rw [hafter]
  unfold fileBytes blobBytes
  cases hst : fs.staging.isStaged id with
  | true =>
    obtain ⟨b, hfile, -, hoid, hserves⟩ := h.staged hst
    rw [if_pos rfl, if_neg hoid, hfile, (h.serves hg' hserves).1]
  | false =>
    rw [if_neg Bool.false_ne_true]
    split_ifs with hoid
    · rfl
    · by_cases hpacked : ∃ o ∈ objects, o.objType = .blob ∧ o.oid = n.oid
      · obtain ⟨o, ho, htype, heq⟩ := hpacked
        have hserves := h.packed o ho htype heq
        rw [hserves.1, (h.serves hg' hserves).1]
      · rw [hg']
        refine (GitEngine.applyRecoveredObjects_blob fun o ho htype heq => ?_).1
        exact hpacked ⟨o, ho, htype, heq⟩

theorem attrSize_served {b : Bytes} (hst : fs.staging.getSize id = none) (hoid : n.oid ≠ []) (hb : g.Serves n.oid b) :
    fs.attrSize g id n = b.length := by
  unfold attrSize
  simp only [hst, hoid, if_false, hb.1, Option.map_some]
  cases hlen : g.cachedLen n.oid with
  | none => rfl
  | some len => exact hb.2 len hlen

theorem KeepsFile.size (h : fs.KeepsFile g dirLen objects id n)
    (hg' : g' = g.applyRecoveredObjects dirLen commitOid rootTreeOid objects) (hcleared : fs'.staging = StagingStore.new)
    (hr : n.Resized g g' n') : fs'.attrSize g' id n' = fs.attrSize g id n := by
  have hnone : fs'.staging.getSize id = none := by
    rw [hcleared]
    rfl
  -- the blob of the file is served before and after
  have hserved {b : Bytes} (hoid : n.oid ≠ []) (hb : g.Serves n.oid b) : fs'.attrSize g' id n' = b.length :=
    attrSize_served hnone (by rw [hr.oid]; exact hoid) (by rw [hr.oid]; exact h.serves hg' hb)
  cases hst : fs.staging.isStaged id with
  | true =>
    obtain ⟨b, -, hsize, hoid, hserves⟩ := h.staged hst
    rw [hserved hoid hserves]
    unfold attrSize
    rw [hsize]
  | false =>
    have hsize := getSize_staged.mpr hst
    by_cases hoid : n.oid = []
    · have hdir : g'.blobsDirLen = g.blobsDirLen := by
        rw [hg']
        exact GitEngine.applyRecoveredObjects_dirLen (h.unnamed hst hoid)
      have hsame : n'.size = n.size := hr.size (by simp only [GitEngine.blobSize, hoid, if_true, hdir])
      unfold attrSize
      simp only [hnone, hsize, hr.oid, hoid, if_true, hdir, hsame]
    · by_cases hpacked : ∃ o ∈ objects, o.objType = .blob ∧ o.oid = n.oid
      · obtain ⟨o, ho, htype, heq⟩ := hpacked
        have hserves := h.packed o ho htype heq
        rw [hserved hoid hserves, attrSize_served hsize hoid hserves]
      · obtain ⟨hblob, hlen⟩ : g'.blobs n.oid = g.blobs n.oid ∧ g'.cachedLen n.oid = g.cachedLen n.oid := by
          rw [hg']
          exact GitEngine.applyRecoveredObjects_blob fun o ho htype heq => hpacked ⟨o, ho, htype, heq⟩
        have hsame : n'.size = n.size := hr.size (by simp only [GitEngine.blobSize, hoid, if_false, hlen])
        unfold attrSize
        simp only [hnone, hsize, hr.oid, hoid, if_false, hblob, hlen, hsame]

theorem Keeps.invisible (h : fs.Keeps g dirLen objects) (hs : fs.Sound) :
    Invisible g (g.applyRecoveredObjects dirLen commitOid rootTreeOid objects) fs
      { fs with staging := StagingStore.new } := by
  intro path id fs₁ hres
  have htrees : ∀ oid t, g.getTree oid = some t →
      (g.applyRecoveredObjects dirLen commitOid rootTreeOid objects).getTree oid = some t := by
    intro oid t ht
    exact GitEngine.applyRecoveredObjects_tree ht fun o ho htype heq => h.trees o ho htype t (heq ▸ ht)
  have hc : Cleared g (g.applyRecoveredObjects dirLen commitOid rootTreeOid objects) fs
      { fs with staging := StagingStore.new } := ⟨.refl _, rfl⟩
  obtain ⟨fs₁', hres', hc₁⟩ := hc.resolve htrees hres
  refine ⟨fs₁', hres', fun node hn hdir => ?_⟩
  obtain ⟨hs₁, hst⟩ := resolve_kept (g := g) hs rootInode path
  have hs₁' := (resolve_kept (g := g.applyRecoveredObjects dirLen commitOid rootTreeOid objects)
    (hs.committed none fs.hasUncommittedChanges) rootInode path).1
  rw [hres] at hs₁ hst
  rw [show (fs.staging.reset none).2 = StagingStore.new from rfl, hres'] at hs₁'
  simp only at hs₁ hst hs₁'
  obtain ⟨node', hn', hr⟩ := hc₁.liveNode hn
  have hkeeps : fs₁.KeepsFile g dirLen objects id node := by
    have := h.files path id node fs₁ ⟨hres, hn, hdir⟩
    refine ⟨?_, ?_, this.packed⟩
    · rw [hst]
      exact this.staged
    · rw [hst]
      exact this.unnamed
  refine sameFile_of hs₁ hs₁' hn hn' hr hdir ?_ (hkeeps.size rfl hc₁.staging hr) fun _ => ?_
  · rw [hr.oid]
    exact hkeeps.bytes rfl hc₁.staging
  · rw [hc₁.staging]
    rfl

end Fs

/-! ## Every state of a server -/

inductive ServerAction where
  | change (now : Nat) (op : NfsOp) (ioFault : Option IoFault) (appendFault : Option AppendFault)
  | read (id offset count : Nat)
  | getattr (id : Nat)
  | lookup (dirid : Nat) (filename : Bytes)
  | readdir (dirid startAfter maxEntries : Nat)
  /-- Blobs were fetched or could not be, and the caches took in some and dropped others. -/
  | fetch (blobs : Str → Option Bytes) (cachedLen : Str → Option Nat) (blobsDirLen : Option Nat)
  | commit (now : Nat) (dirLen : Option Nat) (isShutdown : Bool) (faults : CommitFaults)
  | tick (now : Nat) (dirLen : Option Nat) (faults : CommitFaults)

namespace Server

def setFs (s : Server) (fs : Fs) : Server := { s with fs }

def act (cfg : ServerConfig) (sd : Server × Durable) : ServerAction → Option (Server × Durable)
  | .change now op ioFault appendFault => (sd.1.mutate sd.2 now op ioFault appendFault).map Prod.snd
  | .read id offset count => some (sd.1.setFs (sd.1.fs.read sd.1.engine id offset count).2, sd.2)
  | .getattr id => some (sd.1.setFs (sd.1.fs.getattr sd.1.engine id).2, sd.2)
  | .lookup dirid filename => some (sd.1.setFs (sd.1.fs.lookup sd.1.engine dirid filename).2, sd.2)
  | .readdir dirid startAfter maxEntries =>
    some (sd.1.setFs (sd.1.fs.readdir sd.1.engine dirid startAfter maxEntries).2, sd.2)
  | .fetch blobs cachedLen blobsDirLen =>
    some ({ sd.1 with engine := { sd.1.engine with blobs, cachedLen, blobsDirLen } }, sd.2)
  | .commit now dirLen isShutdown faults =>
    (performCommit cfg sd.1 sd.2 now dirLen isShutdown faults).map Prod.snd
  | .tick now dirLen faults => autoCommitTick cfg sd.1 sd.2 now dirLen faults

/-- What the logs that are not committed replay to, if it is anything. -/
def pending (cfg : ServerConfig) (s : Server) (d : Durable) (now : Nat) : Option RecoveredPackResult :=
  match buildRecovery cfg.zlib s.engine d.wal (s.recoverConfig cfg now) .none (uncommittedSeqs d.wal .none) with
  | some (.ok res) => res
  | _ => none

/-- A commit would lose nothing that a client sees. -/
def CommitKeeps (cfg : ServerConfig) (s : Server) (d : Durable) (now : Nat) (dirLen : Option Nat) : Prop :=
  match s.pending cfg d now with
  | some res => s.fs.Keeps s.engine dirLen res.objects
  | none => s.fs.NothingLeft s.engine

end Server

/-! ### One commit -/

variable {cfg : ServerConfig} {s s' : Server} {d d' : Durable} {now : Nat} {dirLen : Option Nat} {isShutdown : Bool}
  {faults : CommitFaults}

/-- What an attempt leaves of the file system and the engine: all of it, or a cleared staging store over an engine
with the objects of the commit. -/
theorem performCommit_view {r : Except Error (Option RecoveredPackResult)}
    (h : performCommit cfg s d now dirLen isShutdown faults = some (r, s', d')) :
    ∃ store, WalStore.SameLogs d.wal store ∧
      ((s'.fs = s.fs ∧ s'.engine = s.engine ∧ ((∃ e, r = .error e) ∨ (r = .ok none ∧ ∃ d₁,
          recoverAndReplayUncommitted cfg.zlib s.engine { d with wal := store } (s.recoverConfig cfg now)
            faults.recover = some (.ok none, d₁)))) ∨
       ∃ res d₁, recoverAndReplayUncommitted cfg.zlib s.engine { d with wal := store } (s.recoverConfig cfg now)
            faults.recover = some (.ok (some res), d₁) ∧
          s'.fs = { s.fs with staging := (s.fs.staging.reset faults.reset).2 } ∧
          s'.engine = s.engine.applyRecoveredObjects dirLen res.commitOid res.rootTreeOid res.objects ∧
          ((∃ e, r = .error e) ∨ r = .ok (some res))) := by
  have hmap {α : Type} (started : Except Error Unit) (a : α) :
      (∃ e, (started.map fun _ => a) = .error e) ∨ (started.map fun _ => a) = .ok a := by
    cases started with
    | error e => exact .inl ⟨e, rfl⟩
    | ok u => exact .inr rfl
  have hsame := (finalizeActiveWal_effect s.wal d.wal faults.finalize).1
  unfold performCommit at h
  split at h
  · rename_i hfin
    rw [hfin] at hsame
    cases h
    exact ⟨_, hsame, .inl ⟨rfl, rfl, .inl ⟨_, rfl⟩⟩⟩
  · rename_i m store hfin
    rw [hfin] at hsame
    refine ⟨store, hsame, ?_⟩
    simp only at h
    split at h
    · simp at h
    · cases h
      exact .inl ⟨rfl, rfl, .inl ⟨_, rfl⟩⟩
    · rename_i d₁ hrec
      split_ifs at h
      · cases h
        exact .inl ⟨rfl, rfl, .inr ⟨rfl, _, hrec⟩⟩
      · cases h
        exact .inl ⟨rfl, rfl, (hmap _ none).imp_right fun hok => ⟨hok, _, hrec⟩⟩
    · rename_i res d₁ hrec
      split_ifs at h
      · cases h
        exact .inl ⟨rfl, rfl, .inl ⟨_, rfl⟩⟩
      · split at h
        · cases h
          exact .inr ⟨res, _, hrec, rfl, rfl, .inl ⟨_, rfl⟩⟩
        · cases h
          exact .inr ⟨res, _, hrec, rfl, rfl, .inr rfl⟩
      · split at h
        · cases h
          exact .inr ⟨res, _, hrec, rfl, rfl, .inl ⟨_, rfl⟩⟩
        · cases h
          exact .inr ⟨res, _, hrec, rfl, rfl, hmap _ (some res)⟩

/-- A recovery without a fault comes back with what the logs replay to. -/
theorem recover_pending {store : WalStore} {r : Option RecoveredPackResult} {d₁ : Durable}
    (hsame : WalStore.SameLogs d.wal store)
    (h : recoverAndReplayUncommitted cfg.zlib s.engine { d with wal := store } (s.recoverConfig cfg now) .none =
      some (.ok r, d₁)) : s.pending cfg d now = r := by
  obtain ⟨store', hsame', hend⟩ := recover_cases h
  have hall : WalStore.SameLogs d.wal store' := hsame.trans hsame'
  unfold Server.pending
  rw [← hall.uncommittedSeqs, ← hall.buildRecovery]
  rcases hend with ⟨e, he, -⟩ | ⟨hnone, hseqs, -⟩ | ⟨built, -, hbuild, hend⟩
  · simp at he
  · cases hnone
    rw [hseqs]
    rfl
  · rw [hbuild]
    rcases hend with ⟨hok, -⟩ | ⟨p, hp, -⟩
    · cases hok
      rfl
    · simp [RecoverFaults.none] at hp

/-! ### Every run -/

theorem performCommit_sound {r : Except Error (Option RecoveredPackResult)} (hs : s.fs.Sound)
    (h : performCommit cfg s d now dirLen isShutdown faults = some (r, s', d')) : s'.fs.Sound := by
  obtain ⟨store, -, ⟨hfs, -, -⟩ | ⟨res, d₁, -, hfs, -, -⟩⟩ := performCommit_view h
  · rw [hfs]
    exact hs
  · rw [hfs]
    exact hs.committed faults.reset s.fs.hasUncommittedChanges

theorem Server.act_sound {sd sd' : Server × Durable} {a : ServerAction} (hs : sd.1.fs.Sound)
    (h : Server.act cfg sd a = some sd') : sd'.1.fs.Sound := by
  cases a with
  | change now op ioFault appendFault =>
    obtain ⟨⟨answer, after⟩, hmutate, rfl⟩ := Option.map_eq_some_iff.mp h
    unfold Server.mutate at hmutate
    split at hmutate
    · simp at hmutate
    · rename_i handled hhandle
      have hfs : after.1.fs = handled.fs := by
        simp only [Option.some.injEq, Prod.mk.injEq] at hmutate
        rw [← hmutate.2]
        unfold Server.log
        split <;> rfl
      rw [hfs]
      exact (hs.act ioFault op).alike (Fs.handle_answers hhandle).alike
  | read id offset count =>
    cases h
    exact hs.read id offset count
  | getattr id =>
    cases h
    exact hs.getattr id
  | lookup dirid filename =>
    cases h
    exact hs.lookup dirid filename
  | readdir dirid startAfter maxEntries =>
    cases h
    exact hs.readdir dirid startAfter maxEntries
  | fetch blobs cachedLen blobsDirLen =>
    cases h
    exact hs
  | commit now dirLen isShutdown faults =>
    obtain ⟨⟨r, after⟩, hcommit, rfl⟩ := Option.map_eq_some_iff.mp h
    exact performCommit_sound hs hcommit
  | tick now dirLen faults =>
    simp only [Server.act, autoCommitTick] at h
    split_ifs at h
    · split at h
      · simp at h
      · rename_i hcommit
        cases h
        exact performCommit_sound hs hcommit
      · rename_i s₁ d₁ hcommit
        cases h
        exact (performCommit_sound hs hcommit).alike ⟨_, _, _, rfl⟩
    · cases h
      exact hs

/-- The state after a run of a server that starts on an empty tree. -/
def afterActions (as : List ServerAction) : Option (Server × Durable) :=
  match Ledger.testStart with
  | some (.ok s, d) => Run.run (Server.act Ledger.testConfig) (s, d) as
  | _ => none

theorem afterActions_start {as : List ServerAction} {sd : Server × Durable} (h : afterActions as = some sd) :
    ∃ s d, Ledger.testStart = some (.ok s, d) ∧ Run.run (Server.act Ledger.testConfig) (s, d) as = some sd := by
  unfold afterActions at h
  split at h
  · rename_i s d hstart
    exact ⟨s, d, hstart, h⟩
  · simp at h

def testCommit (sd : Server × Durable) : Option (Except Error (Option RecoveredPackResult) × Server × Durable) :=
  performCommit Ledger.testConfig sd.1 sd.2 40 none false .none

theorem lookup_nodes {g : GitEngine} (hg : ∀ oid, g.getTree oid = none) (v : VfsManager) (d : Nat) (name : Str) :
    (v.lookup g d name).2.nodes = v.nodes := by
  have hpop : (v.ensureDirPopulated g d).2.nodes = v.nodes := by
    obtain ⟨ids, -, heq⟩ | ⟨dir, -, -, -, heq⟩ | ⟨e, heq⟩ := VfsManager.ensureDirPopulated_cases g v d
    · rw [heq]
    · rw [heq]
      unfold VfsManager.populate VfsManager.treeEntries
      rw [hg]
      rfl
    · rw [heq]
  unfold VfsManager.lookup
  split_ifs
  · rfl
  · split <;> rfl
  · split
    · rfl
    · split
      · rename_i heq
        rw [heq] at hpop
        exact hpop
      · rename_i heq
        rw [heq] at hpop
        split <;> exact hpop

/-- Over an engine without trees a walk makes no nodes. -/
theorem resolve_nodes {g : GitEngine} (hg : ∀ oid, g.getTree oid = none) (fs : Fs) (id : Nat) (path : List Bytes) :
    (fs.resolve g id path).2.vfs.nodes = fs.vfs.nodes := by
  induction path generalizing fs id with
  | nil => rfl
  | cons name path ih =>
    have hlook := lookup_nodes hg fs.vfs id (fromUtf8Lossy name)
    unfold Fs.resolve Fs.lookup
    rcases hres : fs.vfs.lookup g id (fromUtf8Lossy name) with ⟨e | child, vfs⟩
    · rw [hres] at hlook
      exact hlook
    · rw [hres] at hlook
      simp only
      split_ifs
      · exact hlook
      · exact (ih (fs.setVfs vfs) child).trans hlook

def mkdirD : List ServerAction := [.change 1 (.mkdir rootInode (asBytes ['d'])) none none]

/-- The root and an empty directory. -/
def oneDirectory : VfsManager := ((VfsManager.new (oidOf '0')).mkdir emptyEngine rootInode ['d']).2

theorem oneDirectory_isDir (i : Nat) (n : VfsNode) (h : oneDirectory.nodes i = some n) : n.isDir = true := by
  have hwell : oneDirectory.WellFormed := (VfsManager.WellFormed.new _).mkdir _ _
  have hlt : i < 3 := hwell.fresh i n h
  have hall : ∀ i < 3, (oneDirectory.nodes i).all VfsNode.isDir = true := by decide
  have := hall i hlt
  rw [h] at this
  exact this

def writeF : List ServerAction :=
  [.change 1 (.create rootInode (asBytes ['f'])) none none, .change 2 (.write 2 0 [0x63]) none none]

/-- The first byte of the file. -/
def readF (s : Server) : Except NfsStat (Bytes × Bool) :=
  match s.fs.resolve s.engine rootInode [asBytes ['f']] with
  | (.ok id, fs) => (fs.read s.engine id 0 1).1
  | (.error e, _) => .error e

theorem readF_ok {s : Server} {res : Bytes × Bool} (h : (readF s).toOption = some res) :
    ∃ id fs, s.fs.resolve s.engine rootInode [asBytes ['f']] = (.ok id, fs) ∧ (fs.read s.engine id 0 1).1 = .ok res := by
  unfold readF at h
  split at h
  · rename_i id fs hres
    refine ⟨id, fs, hres, ?_⟩
    cases hread : (fs.read s.engine id 0 1).1 with
    | error e => simp [hread, Except.toOption] at h
    | ok res' =>
      rw [hread, Except.toOption, Option.some.injEq] at h
      rw [h]
  · cases h

end GitNfs
