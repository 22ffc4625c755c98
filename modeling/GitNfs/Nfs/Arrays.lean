import GitNfs.Lib.Extent
import GitNfs.Nfs.Handlers
import GitNfs.Vfs.Files
import Mathlib.Data.UInt

/-! # The arrays of the files

The bytes of a file as a client sees them, and the edits that requests ask for. Where the staging of an inode is
left alone its array stays.
-/

namespace GitNfs

inductive FileOp where
  | change (op : NfsOp)
  | read (id offset count : Nat)
  | getattr (id : Nat)
  | lookup (dirid : Nat) (filename : Bytes)
  | readdir (dirid startAfter maxEntries : Nat)
  deriving DecidableEq, Repr

/-- A request, when it comes and what the engine holds then. -/
structure FileRequest where
  now : Nat
  engine : GitEngine
  op : FileOp

namespace Fs

/-- What the shared part of `create` and `create_exclusive` does before it asks for the path. -/
def applyCreate (g : GitEngine) (fs : Fs) (dirid : Nat) (filename : Bytes) : Fs :=
  match fs.vfs.createFile g dirid (fromUtf8Lossy filename) .regularFile with
  | (.error _, vfs) => fs.setVfs vfs
  | (.ok node, vfs) => { fs with vfs, staging := (fs.staging.createFile node.id none).2 }

def applyRemove (g : GitEngine) (fs : Fs) (dirid : Nat) (filename : Bytes) : Fs :=
  match fs.vfs.remove g dirid (fromUtf8Lossy filename) with
  | (.error _, vfs) => fs.setVfs vfs
  | (.ok node, vfs) => { fs with vfs, staging := fs.staging.markDeleted node.id }

/-- What a handler leaves that never answers. All but `rename` ask for the path when they have changed
everything else. -/
def unanswered (g : GitEngine) (fs : Fs) : NfsOp → Fs
  | .create dirid filename => fs.applyCreate g dirid filename
  | .createExclusive dirid filename => fs.applyCreate g dirid filename
  | .mkdir dirid dirname => fs.setVfs (fs.vfs.mkdir g dirid (fromUtf8Lossy dirname)).2
  | .write id offset data => (fs.applyWrite g id offset data none).2
  | .setattr _ none => fs
  | .setattr id (some newSize) => (fs.applySetSize g id newSize none).2
  | .remove dirid filename => fs.applyRemove g dirid filename
  | .rename _ _ _ _ => fs

/-- What a request leaves while no staging operation fails. -/
def serve (fs : Fs) (r : FileRequest) : Fs :=
  match r.op with
  | .change op =>
    match fs.handle r.engine r.now none op with
    | some h => h.fs
    | none => fs.unanswered r.engine op
  | .read id offset count => (fs.read r.engine id offset count).2
  | .getattr id => (fs.getattr r.engine id).2
  | .lookup dirid filename => (fs.lookup r.engine dirid filename).2
  | .readdir dirid startAfter maxEntries => (fs.readdir r.engine dirid startAfter maxEntries).2

def fileStep (fs : Fs) (r : FileRequest) : Option Fs := some (fs.serve r)

/-! ## The array of a file -/

/-- A file that a client can reach by its handle. -/
def LiveFile (fs : Fs) (i : Nat) : Prop := ∃ node, fs.liveNode i = .ok node ∧ node.isDir = false

instance (fs : Fs) (i : Nat) : Decidable (fs.LiveFile i) :=
  decidable_of_iff ((fs.liveNode i).toOption.any fun node => !node.isDir) <| by
    unfold LiveFile
    cases fs.liveNode i <;> simp [Except.toOption]

/-- The bytes of a file that is live: its staging file, or its blob in the base. -/
def content (g : GitEngine) (fs : Fs) (i : Nat) : Option Bytes :=
  match fs.liveNode i with
  | .error _ => none
  | .ok node =>
    if node.isDir then none else if fs.staging.isStaged i then fs.staging.files i else g.blobs node.oid

def array (g : GitEngine) (fs : Fs) (i : Nat) : Option (Extent UInt8) := (fs.content g i).map Extent.ofList

/-- The edit that a request asks for. A file that is created again under its name is cleared. -/
def edit (fs : Fs) (r : FileRequest) : Option (Nat × Extent.Edit UInt8) :=
  match r.op with
  | .change (.create dirid filename) | .change (.createExclusive dirid filename) =>
    (fs.vfs.createFile r.engine dirid (fromUtf8Lossy filename) .regularFile).1.toOption.map fun node =>
      (node.id, .clear)
  | .change (.write id offset data) => some (id, .write offset data)
  | .change (.setattr id (some newSize)) => some (id, .resize newSize)
  | _ => none

end Fs

/-! ## Fetches that succeed -/

/-- An engine over the base: its trees, of its blobs those it can fetch, and the lengths of those it holds. -/
structure GitEngine.Mirrors (g' g : GitEngine) : Prop where
  trees : g'.trees = g.trees
  blobs : ∀ oid b, g'.blobs oid = some b → g.blobs oid = some b
  cached : ∀ oid len b, g'.cachedLen oid = some len → g.blobs oid = some b → len = b.length

/-- The file whose bytes a request needs. -/
def FileOp.needs : FileOp → Option Nat
  | change (.write id _ _) => some id
  | change (.setattr id (some _)) => some id
  | read id _ _ => some id
  | getattr id => some id
  | _ => none

namespace Fs

/-- The blob of a file that is not staged can be fetched. -/
def Fetches (g : GitEngine) (fs : Fs) (i : Nat) : Prop :=
  ∀ node, fs.liveNode i = .ok node → node.isDir = false → fs.staging.isStaged i = false →
    ∃ b, g.blobs node.oid = some b

def Served (g : GitEngine) (fs : Fs) (r : FileRequest) : Prop :=
  r.engine.Mirrors g ∧ ∀ i, r.op.needs = some i → fs.Fetches r.engine i

/-- The file system at the start: nothing is staged, and every file has its object id. -/
structure AtBase (fs : Fs) : Prop where
  wellFormed : fs.vfs.WellFormed
  clean : fs.staging = StagingStore.new
  based : ∀ i n, fs.vfs.nodes i = some n → n.isDir = false → n.oid ≠ []

theorem AtBase.new (rootOid : Str) : (Fs.new rootOid).AtBase where
  wellFormed := .new rootOid
  clean := rfl
  based := by
    intro i n hn hdir
    simp only [Fs.new, VfsManager.new, Function.update_apply] at hn
    split_ifs at hn
    simp only [Option.some.injEq] at hn
    subst hn
    simp at hdir

/-! ## Where the bytes are -/

/-- A staging file is there for exactly the staged nodes, at the size that is noted. A file without one has
an object id. -/
structure Backed (fs : Fs) : Prop where
  wellFormed : fs.vfs.WellFormed
  sized : ∀ i, fs.staging.stagedNodes.lookup i = (fs.staging.files i).map List.length
  known : ∀ i, fs.staging.isStaged i = true → ∃ n, fs.vfs.nodes i = some n
  based : ∀ i n, fs.vfs.nodes i = some n → n.isDir = false → fs.staging.isStaged i = false → n.oid ≠ []

theorem AtBase.backed {fs : Fs} (h : fs.AtBase) : fs.Backed where
  wellFormed := h.wellFormed
  sized i := by
    rw [h.clean]
    rfl
  known i hi := by
    rw [h.clean] at hi
    simp [StagingStore.isStaged, StagingStore.new] at hi
  based i n hn hdir _ := h.based i n hn hdir

variable {g : GitEngine} {fs fs' : Fs}

theorem Backed.staged_file (h : fs.Backed) {i : Nat} (hi : fs.staging.isStaged i = true) :
    ∃ b, fs.staging.files i = some b := by
  unfold StagingStore.isStaged at hi
  rw [h.sized i] at hi
  cases hb : fs.staging.files i with
  | none => simp [hb] at hi
  | some b => exact ⟨b, rfl⟩

theorem Backed.unstaged_file (h : fs.Backed) {i : Nat} (hi : fs.staging.isStaged i = false) :
    fs.staging.files i = none := by
  unfold StagingStore.isStaged at hi
  rw [h.sized i] at hi
  cases hb : fs.staging.files i with
  | none => rfl
  | some b => simp [hb] at hi

theorem liveNode_of {i : Nat} {n : VfsNode} (hn : fs.vfs.nodes i = some n) (hlive : n.isDeleted = false)
    (hkept : fs.staging.isDeleted i = false) : fs.liveNode i = .ok n := by
  unfold liveNode VfsManager.getNode
  simp [hkept, hn, hlive]

theorem content_of {i : Nat} {n : VfsNode} (hn : fs.liveNode i = .ok n) (hdir : n.isDir = false) :
    fs.content g i = if fs.staging.isStaged i then fs.staging.files i else g.blobs n.oid := by
  unfold content
  simp [hn, hdir]

theorem content_live {i : Nat} {b : Bytes} (h : fs.content g i = some b) : fs.LiveFile i := by
  unfold content at h
  split at h
  · simp at h
  · rename_i n hn
    split_ifs at h with hdir
    · exact ⟨n, hn, by simpa using hdir⟩
    · exact ⟨n, hn, by simpa using hdir⟩

/-! ## What a request does to the arrays -/

/-- The file is an entry of the base and has the bytes of its blob. -/
def Original (g : GitEngine) (fs : Fs) (i : Nat) : Prop :=
  ∃ n, fs.vfs.nodes i = some n ∧ VfsManager.FromTree g fs.vfs n ∧
    fs.array g i = (g.blobs n.oid).map Extent.ofList

/-- A file that stays has its edit done, a file that is new is empty or original. -/
structure Edited (g : GitEngine) (fs fs' : Fs) (e : Option (Nat × Extent.Edit UInt8)) : Prop where
  kept : ∀ i a, fs.array g i = some a → fs'.LiveFile i → fs'.array g i = some (Extent.touch i a e)
  new : ∀ i, ¬ fs.LiveFile i → fs'.LiveFile i →
    e = some (i, .clear) ∧ fs'.array g i = some .empty ∨ fs'.Original g i

theorem Edited.refl {e : Option (Nat × Extent.Edit UInt8)} (he : ∀ i ed, e = some (i, ed) → ¬ fs.LiveFile i) :
    Edited g fs fs e where
  kept i a ha hlive := by
    rw [ha]
    cases e with
    | none => rfl
    | some p => rw [Extent.touch_of_ne fun h : p.1 = i => he p.1 p.2 rfl (h ▸ hlive)]
  new i hnot hlive := absurd hlive hnot

/-- An inode whose staging is left alone keeps its array, and a file that is new there is original. -/
theorem untouched (fs' : Fs) (hb : fs.Backed) {i : Nat}
    (hfate : VfsManager.Fate g fs.vfs fs'.vfs i)
    (hlookup : fs'.staging.stagedNodes.lookup i = fs.staging.stagedNodes.lookup i)
    (hfile : fs'.staging.files i = fs.staging.files i)
    (hdel : fs.staging.isDeleted i = true → fs'.staging.isDeleted i = true) :
    (∀ a, fs.array g i = some a → fs'.LiveFile i → fs'.array g i = some a) ∧
      (¬ fs.LiveFile i → fs'.LiveFile i → fs'.Original g i) := by
  have hstaged : fs'.staging.isStaged i = fs.staging.isStaged i := by
    unfold StagingStore.isStaged
    rw [hlookup]
  have hback {n' : VfsNode} (hn' : fs'.liveNode i = .ok n') : fs.staging.isDeleted i = false := by
    by_contra hdeleted
    rw [Bool.not_eq_false] at hdeleted
    have := (liveNode_ok hn').2.2
    rw [hdel hdeleted] at this
    cases this
  constructor
  · rintro a ha ⟨n', hn', hdir'⟩
    obtain ⟨b, hcontent, rfl⟩ := Option.map_eq_some_iff.mp ha
    obtain ⟨n, hn, hdir⟩ := content_live hcontent
    unfold array
    rw [content_of hn hdir] at hcontent
    rw [content_of hn' hdir', hstaged, hfile]
    rcases hfate with ⟨hnone, -⟩ | ⟨hm, hm', hoid, -, -⟩ | ⟨hnone, -, -⟩
    · simp [(liveNode_ok hn).1] at hnone
    · rw [(liveNode_ok hn).1, Option.some.injEq] at hm
      rw [(liveNode_ok hn').1, Option.some.injEq] at hm'
      rw [hm', hoid, ← hm, hcontent]
      rfl
    · simp [(liveNode_ok hn).1] at hnone
  · rintro hnot ⟨n', hn', hdir'⟩
    obtain ⟨hnode', hlive', -⟩ := liveNode_ok hn'
    rcases hfate with ⟨-, hnone⟩ | ⟨hm, hm', -, hdir, hlive⟩ | ⟨hnone, hm', hnew⟩
    · simp [hnode'] at hnone
    · rw [hnode', Option.some.injEq] at hm'
      subst hm'
      exact absurd ⟨_, liveNode_of hm (hlive hlive') (hback hn'), hdir ▸ hdir'⟩ hnot
    · rw [hnode', Option.some.injEq] at hm'
      subst hm'
      refine ⟨n', hnode', hnew.resolve_left (by simp [hdir']), ?_⟩
      have hunstaged : fs'.staging.isStaged i = false := by
        rw [hstaged]
        by_contra hst
        obtain ⟨n, hn⟩ := hb.known i (by simpa using hst)
        simp [hn] at hnone
      unfold array
      rw [content_of hn' hdir', hunstaged]
      rfl

theorem Backed.oid (hg : g.ParsedTrees) (hb : fs.Backed) {v' : VfsManager} {i : Nat} {n' : VfsNode}
    (hfate : VfsManager.Fate g fs.vfs v' i) (hn' : v'.nodes i = some n') (hdir : n'.isDir = false)
    (hst : fs.staging.isStaged i = false) : n'.oid ≠ [] := by
  rcases hfate with ⟨-, hnone⟩ | ⟨hm, hm', hoid, hkind, -⟩ | ⟨-, hm', hnew⟩
  · simp [hn'] at hnone
  · rw [hn', Option.some.injEq] at hm'
    subst hm'
    exact hoid ▸ hb.based i _ hm (hkind ▸ hdir) hst
  · rw [hn', Option.some.injEq] at hm'
    subst hm'
    obtain ⟨d, dir, e, -, -, he, hoid, -⟩ := hnew.resolve_left (by simp [hdir])
    exact hoid ▸ (VfsManager.entry_isOid hg he).ne_nil

theorem fate_node {v v' : VfsManager} {i : Nat} {n : VfsNode} (h : VfsManager.Fate g v v' i)
    (hn : v.nodes i = some n) : ∃ n', v'.nodes i = some n' := by
  rcases h with ⟨hnone, -⟩ | ⟨-, hn', -, -, -⟩ | ⟨hnone, -, -⟩
  · simp [hn] at hnone
  · exact ⟨_, hn'⟩
  · simp [hn] at hnone

/-- Without a change of what is staged no file is edited. -/
theorem quiet (hg : g.ParsedTrees) (hb : fs.Backed) (hv' : fs'.vfs.WellFormed)
    (hgrows : VfsManager.Grows g fs.vfs fs'.vfs) (hnodes : fs'.staging.stagedNodes = fs.staging.stagedNodes)
    (hfiles : fs'.staging.files = fs.staging.files)
    (hdel : ∀ i, fs.staging.isDeleted i = true → fs'.staging.isDeleted i = true) :
    fs'.Backed ∧ Edited g fs fs' none := by
  have hstaged (i : Nat) : fs'.staging.isStaged i = fs.staging.isStaged i := by
    unfold StagingStore.isStaged
    rw [hnodes]
  have huntouched (i : Nat) := untouched fs' hb (hgrows i) (by rw [hnodes]) (by rw [hfiles]) (hdel i)
  constructor
  · refine ⟨hv', fun i => ?_, fun i hi => ?_, fun i n hn hdir hst => ?_⟩
    · rw [hnodes, hfiles]
      exact hb.sized i
    · obtain ⟨n, hn⟩ := hb.known i (hstaged i ▸ hi)
      exact fate_node (hgrows i) hn
    · exact hb.oid hg (hgrows i) hn hdir (hstaged i ▸ hst)
  · exact ⟨fun i => (huntouched i).1, fun i hnot hlive => .inr ((huntouched i).2 hnot hlive)⟩

/-- What is stored for one node edits at most its file. -/
theorem stores (hg : g.ParsedTrees) (hb : fs.Backed) {v' : VfsManager} (hv' : v'.WellFormed) {t : Nat}
    (c : Bytes) (hthere : ∃ n, v'.nodes t = some n)
    (hfate : ∀ i, i ≠ t → VfsManager.Fate g fs.vfs v' i) {fs' : Fs} (hvfs : fs'.vfs = v')
    (hst : fs'.staging = fs.staging.stored t c) {ed : Extent.Edit UInt8}
    (hkept : ∀ a, fs.array g t = some a → ed.apply a = Extent.ofList c)
    (hnew : ¬ fs.LiveFile t → fs'.LiveFile t → ed = .clear ∧ c = []) :
    fs'.Backed ∧ Edited g fs fs' (some (t, ed)) := by
  subst hvfs
  have hself : fs'.LiveFile t → fs'.array g t = some (Extent.ofList c) := by
    rintro ⟨n, hn, hdir⟩
    unfold array
    rw [content_of hn hdir, hst]
    simp [StagingStore.isStaged]
  have hothers (i : Nat) (hi : i ≠ t) := untouched fs' hb (hfate i hi) (by simp [hst, hi])
    (by simp [hst, hi]) (by simp [hst])
  refine ⟨⟨hv', fun i => ?_, fun i hi => ?_, fun i n hn hdir hunst => ?_⟩, fun i a ha hlive => ?_,
    fun i hnot hlive => ?_⟩
  · simp only [hst, StagingStore.stored_lookup, StagingStore.stored_files]
    split_ifs
    · rfl
    · exact hb.sized i
  · by_cases hit : i = t
    · exact hit ▸ hthere
    · obtain ⟨n, hn⟩ := hb.known i (by simpa [hst, StagingStore.isStaged, hit] using hi)
      exact fate_node (hfate i hit) hn
  · by_cases hit : i = t
    · simp [hst, StagingStore.isStaged, hit] at hunst
    · exact hb.oid hg (hfate i hit) hn hdir (by simpa [hst, StagingStore.isStaged, hit] using hunst)
  · by_cases hit : i = t
    · subst hit
      rw [Extent.touch_self, hkept a ha]
      exact hself hlive
    · rw [Extent.touch_of_ne (Ne.symm hit)]
      exact (hothers i hit).1 a ha hlive
  · by_cases hit : i = t
    · subst hit
      obtain ⟨rfl, rfl⟩ := hnew hnot hlive
      exact .inl ⟨rfl, hself hlive⟩
    · exact .inr ((hothers i hit).2 hnot hlive)

end Fs

end GitNfs
