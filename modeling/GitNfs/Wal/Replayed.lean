import GitNfs.Lib.Run
import GitNfs.Vfs.Updates
import GitNfs.Wal.Recovery

/-! # What a replay does to the tables

Entry by entry, a replay updates the tables of the inodes in the ways that the operations have.
-/

namespace GitNfs

open VfsManager

def WalPayload.paths : WalPayload → List Str
  | .header _ => []
  | .createFile create => [create.path]
  | .mkdir path => [path]
  | .write path _ _ => [path]
  | .truncate path _ => [path]
  | .remove path => [path]
  | .rename fromPath toPath => [fromPath, toPath]

/-- A directory is made under a name that no live node has. -/
def WalPayload.FreshDir (g : GitEngine) (r : Replay) : WalPayload → Prop
  | .mkdir path => ∀ parentId name vfs, r.vfs.ensureParentDirs g path = (.ok (parentId, name), vfs) →
      (vfs.ensureDirPopulated g parentId).2.liveChild parentId name = none
  | _ => True

def replayStep (g : GitEngine) (r : Replay) (entry : WalEntry) : Option Replay :=
  match entry.payload with
  | none => some r
  | some payload => (r.replayPayload g payload).toOption

variable {g : GitEngine} {r r' : Replay}

theorem replayStep_some {entry : WalEntry} {payload : WalPayload} (hpayload : entry.payload = some payload) :
    replayStep g r entry = some r' ↔ r.replayPayload g payload = .ok r' := by
  unfold replayStep
  rw [hpayload]
  simp only
  cases r.replayPayload g payload <;> simp [Except.toOption]

theorem run_replayStep {entries : List WalEntry} :
    Run.run (replayStep g) r entries = some r' ↔ replayWalEntries g entries r = .ok r' := by
  induction entries generalizing r with
  | nil => simp [Run.run, replayWalEntries]
  | cons entry entries ih =>
    rw [Run.run_cons, replayWalEntries]
    cases hpayload : entry.payload with
    | none =>
      simp only [replayStep, hpayload, Option.some.injEq]
      constructor
      · rintro ⟨t, rfl, hrun⟩
        exact ih.mp hrun
      · intro hrun
        exact ⟨r, rfl, ih.mpr hrun⟩
    | some payload =>
      simp only [replayStep_some hpayload]
      cases r.replayPayload g payload with
      | error e => simp
      | ok t => simp [ih]

/-! ## Updates -/

namespace Replay

variable {lim : Limits}

@[simp] theorem record_vfs (r : Replay) (path : Str) : (r.record path).vfs = r.vfs := rfl

/-- The modes that a replay creates files with. -/
structure CreatesWith (lim : Limits) : Prop where
  regular : lim.mode .regularFile
  executable : lim.mode .executableFile
  symlink : lim.mode .symlink

theorem createMode_allowed (hmode : CreatesWith lim) (inodeType : Int) : lim.mode (createMode inodeType) := by
  unfold createMode
  cases InodeType.ofI32 inodeType with
  | executableFile => exact hmode.executable
  | symlink => exact hmode.symlink
  | regularFile => exact hmode.regular
  | directory => exact hmode.regular

theorem createAt_updates (hv : r.vfs.WellFormed) {path : Str} {mode : TreeEntryMode} {id : Nat}
    (hnames : ∀ part ∈ components (trimMatches '/' path), lim.name part) (hmode : lim.mode mode)
    (h : r.createAt g path mode = .ok (id, r')) : Updates lim g r.vfs r'.vfs := by
  unfold createAt at h
  obtain ⟨hparents, hname⟩ := ensureParentDirs_updates (g := g) hv hnames
  split at h
  · simp at h
  · rename_i parentId name vfs hpath
    rw [hpath] at hparents hname
    have hcreate := createFile_updates (g := g) (hparents.wellFormed hv) parentId (hname _ _ rfl) hmode
    split at h
    · simp at h
    · rename_i node vfs' hfile
      rw [hfile] at hcreate
      split at h
      · simp at h
      · simp only [Except.ok.injEq, Prod.mk.injEq] at h
        rw [← h.2]
        exact hparents.trans hcreate

theorem writeNode_updates (hv : r.vfs.WellFormed) {id offset : Nat} {data : Bytes}
    (h : r.writeNode g id offset data = .ok r') : Updates lim g r.vfs r'.vfs := by
  unfold writeNode at h
  split at h
  · simp at h
  · split at h
    · simp at h
    · rw [← Except.ok.inj h]
      exact .one hv (.resize _ _)

/-- What one entry does to the tables. -/
theorem replayPayload_updates (hv : r.vfs.WellFormed) (hmode : CreatesWith lim) {payload : WalPayload}
    (hnames : ∀ path ∈ payload.paths, ∀ part ∈ components (trimMatches '/' path), lim.name part)
    (hfresh : lim.shadow ∨ payload.FreshDir g r) (h : r.replayPayload g payload = .ok r') :
    Updates lim g r.vfs r'.vfs := by
  cases payload with
  | header _ =>
    rw [← Except.ok.inj h]
    exact .refl
  | createFile create =>
    simp only [replayPayload, replayCreateFile] at h
    cases hat : createAt g (r.record create.path) create.path (createMode create.inodeType) with
    | error e => simp [hat, Except.map] at h
    | ok p =>
      simp only [hat, Except.map, Except.ok.injEq] at h
      have := createAt_updates (r := r.record create.path) hv (hnames _ List.mem_cons_self)
        (createMode_allowed hmode _) hat
      rwa [h] at this
  | mkdir path =>
    obtain ⟨hparents, hname⟩ := ensureParentDirs_updates (g := g) hv (hnames _ List.mem_cons_self)
    simp only [replayPayload, replayMkdir, record_vfs] at h
    split at h
    · simp at h
    · rename_i parentId name vfs hpath
      have hfree := hfresh.imp_right fun hfresh => hfresh parentId name vfs hpath
      rw [hpath] at hparents hname
      have hmade := mkdir_updates (hparents.wellFormed hv) parentId (hname _ _ rfl) hfree
      split at h
      · simp at h
      · rename_i node vfs' hdir
        rw [hdir] at hmade
        rw [← Except.ok.inj h]
        exact hparents.trans hmade
  | write path offset data =>
    have hlookup : Updates lim g r.vfs (r.vfs.lookupPath g path).2 := lookupPath_updates hv path
    simp only [replayPayload, replayWrite, record_vfs] at h
    split at h
    · rename_i id vfs hpath
      rw [hpath] at hlookup
      exact hlookup.trans (writeNode_updates (r := { r.record path with vfs }) (hlookup.wellFormed hv) h)
    · rename_i e vfs hpath
      rw [hpath] at hlookup
      split at h
      · simp at h
      · rename_i id r₁ hat
        have hcreate := createAt_updates (r := { r.record path with vfs }) (hlookup.wellFormed hv)
          (hnames _ List.mem_cons_self) hmode.regular hat
        have hboth := hlookup.trans hcreate
        exact hboth.trans (writeNode_updates (Updates.wellFormed hv hboth) h)
  | truncate path newSize =>
    have hlookup : Updates lim g r.vfs (r.vfs.lookupPath g path).2 := lookupPath_updates hv path
    simp only [replayPayload, replayTruncate, record_vfs] at h
    split at h
    · rename_i hpath
      rw [hpath] at hlookup
      rwa [← Except.ok.inj h]
    · rename_i id vfs hpath
      rw [hpath] at hlookup
      split at h
      · simp at h
      · split at h
        · simp at h
        · rw [← Except.ok.inj h]
          exact hlookup.tail ⟨hlookup.wellFormed hv, .resize _ _⟩
  | remove path =>
    have hlookup : Updates lim g r.vfs (r.vfs.lookupPath g path).2 := lookupPath_updates hv path
    rw [← Except.ok.inj h]
    simp only [replayRemove, record_vfs]
    split
    · rename_i hpath
      rwa [hpath] at hlookup
    · rename_i id vfs hpath
      rw [hpath] at hlookup
      obtain ⟨hparents, -⟩ := ensureParentDirs_updates (g := g) (hlookup.wellFormed hv)
        (hnames _ List.mem_cons_self)
      split
      · rename_i parentId name vfs' hpath'
        rw [hpath'] at hparents
        have hboth := hlookup.trans hparents
        exact hboth.trans (remove_updates (Updates.wellFormed hv hboth) parentId name)
      · rename_i hpath'
        rw [hpath'] at hparents
        exact hlookup.trans hparents
  | rename fromPath toPath =>
    obtain ⟨hfrom, -⟩ := ensureParentDirs_updates (g := g) hv (hnames _ List.mem_cons_self)
    rw [← Except.ok.inj h]
    simp only [replayRename, record_vfs]
    split
    · rename_i hpath
      rwa [hpath] at hfrom
    · rename_i fromParent fromName vfs hpath
      rw [hpath] at hfrom
      obtain ⟨hto, hname⟩ := ensureParentDirs_updates (g := g) (hfrom.wellFormed hv)
        (hnames toPath (List.mem_cons_of_mem _ List.mem_cons_self))
      split
      · rename_i hpath'
        rw [hpath'] at hto
        exact hfrom.trans hto
      · rename_i toParent toName vfs' hpath'
        rw [hpath'] at hto hname
        have hboth := hfrom.trans hto
        exact hboth.trans (rename_updates (Updates.wellFormed hv hboth) fromParent fromName toParent (hname _ _ rfl))

end Replay

end GitNfs
