import GitNfs.Vfs.Spared
import GitNfs.Wal.Exact

/-! # What a log does not name

Where no path of a log leads, and no directory above, a commit of the log has what its base had. This needs
nothing of the entries elsewhere: they may make, move and remove, and the directories above may be written again.
-/

namespace GitNfs

open VfsManager

/-- No path of the payload leads to the path or to a directory above it. -/
def WalPayload.Apart (payload : WalPayload) (path : List Str) : Prop :=
  ∀ p ∈ payload.paths, (∀ part ∈ components p, isDots part = false) ∧ ¬ components p <+: path

variable {g : GitEngine} {v v₁ w : VfsManager} {r r' r'' : Replay} {path : List Str}

/-- The way to the path is spared, and what gets staged is not on it. -/
structure Replay.Bypasses (g : GitEngine) (path : List Str) (r r' : Replay) : Prop where
  wellFormed : r'.vfs.WellFormed
  spares : ∀ q, q <+: path → Spares g r.vfs r'.vfs q
  staged : ∀ i, r'.staging.isStaged i = true →
    r.staging.isStaged i = true ∨ ∃ q, ¬ q <+: path ∧ placeAt g r'.vfs q = some (.node i)

theorem record_isStaged (staging : StagingStore) (p : Str) (i : Nat) :
    (staging.recordChangedPath p).isStaged i = staging.isStaged i := by
  unfold StagingStore.recordChangedPath
  simp only
  split_ifs <;> rfl

theorem isStaged_stored {staging : StagingStore} {id i : Nat} {content : Bytes}
    (h : (staging.stored id content).isStaged i = true) : staging.isStaged i = true ∨ i = id := by
  unfold StagingStore.isStaged at h ⊢
  rw [StagingStore.stored_lookup] at h
  split_ifs at h with hi
  · exact .inr hi
  · exact .inl h

namespace Replay

namespace Bypasses

/-- Nothing gets staged. -/
theorem of_spares (hwell : r'.vfs.WellFormed) (hspares : ∀ q, q <+: path → Spares g r.vfs r'.vfs q)
    (hstaged : ∀ i, r'.staging.isStaged i = r.staging.isStaged i) : Bypasses g path r r' :=
  ⟨hwell, hspares, fun i hi => .inl (hstaged i ▸ hi)⟩

/-- First something that stages nothing. -/
theorem after (h : Bypasses g path r' r'') (hspares : ∀ q, q <+: path → Spares g r.vfs r'.vfs q)
    (hstaged : ∀ i, r'.staging.isStaged i = r.staging.isStaged i) : Bypasses g path r r'' where
  wellFormed := h.wellFormed
  spares := fun q hq => (hspares q hq).trans (h.spares q hq)
  staged := fun i hi => (h.staged i hi).imp_left fun hold => hstaged i ▸ hold

/-- Then content for an inode that is not on the way, without a change of what is where. -/
theorem stores (h : Bypasses g path r r') {q : List Str} {id size : Nat} {content : Bytes} (hq : ¬ q <+: path)
    (hid : placeAt g r'.vfs q = some (.node id)) :
    Bypasses g path r ⟨r'.vfs.updateFileSize id size, r'.staging.stored id content⟩ where
  wellFormed := h.wellFormed.updateFileSize id size
  spares := fun q hq => (h.spares q hq).trans (updateFileSize_spares h.wellFormed id size)
  staged := fun i hi => by
    have hspares (q : List Str) : Spares g r'.vfs (r'.vfs.updateFileSize id size) q :=
      updateFileSize_spares h.wellFormed id size
    rcases isStaged_stored hi with hold | rfl
    · refine (h.staged i hold).imp_right fun ⟨q', hq', hplace⟩ => ?_
      exact ⟨q', hq', (hspares q').node hplace⟩
    · exact .inr ⟨q, hq, (hspares q).node hid⟩

end Bypasses

theorem createAt_bypasses (hv : r.vfs.WellFormed) {p : Str} (hdots : ∀ part ∈ components p, isDots part = false)
    (hout : ¬ components p <+: path) {mode : TreeEntryMode} {id : Nat} (hat : r.createAt g p mode = .ok (id, r')) :
    Bypasses g path r r' ∧ placeAt g r'.vfs (components p) = some (.node id) := by
  have hparents (q : List Str) : Spares g r.vfs (r.vfs.ensureParentDirs g p).2 q := ensureParentDirs_spares hv hdots
  have hv₁ := hv.ensureParentDirs (g := g) p
  unfold createAt at hat
  split at hat
  · simp at hat
  · rename_i parentId name v₁ hparent
    rw [hparent] at hparents hv₁
    obtain ⟨above, hpath, habove, hname⟩ := ensureParentDirs_place hv hdots hparent
    rw [hpath] at hout ⊢
    have hv₂ := hv₁.createFile (g := g) parentId name mode
    have hspares {q : List Str} (hq : q <+: path) : Spares g v₁ (v₁.createFile g parentId name mode).2 q :=
      createFile_spares hv₁ habove (fun h => hout (h.trans hq)) mode
    split at hat
    · simp at hat
    · rename_i node v₂ hcreate
      rw [hcreate] at hv₂
      simp only [StagingStore.createFile_ok, Except.ok.injEq, Prod.mk.injEq] at hat
      obtain ⟨rfl, rfl⟩ := hat
      have hplace := createFile_place hv₁ habove hname hcreate
      refine ⟨⟨hv₂, fun q hq => ?_, fun i hi => ?_⟩, hplace⟩
      · have hmade := hspares hq
        rw [hcreate] at hmade
        exact (hparents q).trans hmade
      · rcases isStaged_stored hi with hold | rfl
        · exact .inl hold
        · exact .inr ⟨above ++ [name], hout, hplace⟩

theorem Bypasses.writes (h : Bypasses g path r r') {q : List Str} {id offset : Nat} {data : Bytes} (hq : ¬ q <+: path)
    (hid : placeAt g r'.vfs q = some (.node id)) (hwrite : r'.writeNode g id offset data = .ok r'') :
    Bypasses g path r r'' := by
  unfold writeNode at hwrite
  split at hwrite
  · simp at hwrite
  · rw [StagingStore.writeAt_ok] at hwrite
    obtain rfl := Except.ok.inj hwrite
    exact h.stores hq hid

theorem replayRemove_bypasses (hv : r.vfs.WellFormed) {p : Str} (hdots : ∀ part ∈ components p, isDots part = false)
    (hout : ¬ components p <+: path) : Bypasses g path r (r.replayRemove g p) := by
  have hlookup (q : List Str) : Spares g r.vfs (r.vfs.lookupPath g p).2 q := lookupPath_spares hv p
  have hv₁ := hv.lookupPath (g := g) p
  unfold replayRemove
  split
  · rename_i hpath
    rw [hpath] at hlookup hv₁
    exact .of_spares hv₁ (fun q _ => hlookup q) fun _ => rfl
  · rename_i id v₁ hpath
    rw [hpath] at hlookup hv₁
    have hparents (q : List Str) : Spares g v₁ (v₁.ensureParentDirs g p).2 q := ensureParentDirs_spares hv₁ hdots
    have hv₂ := hv₁.ensureParentDirs (g := g) p
    rcases hparent : v₁.ensureParentDirs g p with ⟨e | ⟨parentId, name⟩, v₂⟩ <;> rw [hparent] at hparents hv₂
    · exact .of_spares hv₂ (fun q _ => (hlookup q).trans (hparents q)) fun _ => rfl
    · obtain ⟨above, habove, hplace, -⟩ := ensureParentDirs_place hv₁ hdots hparent
      rw [habove] at hout
      refine .of_spares (hv₂.remove (g := g) parentId name) (fun q hq => ?_) fun _ => rfl
      exact ((hlookup q).trans (hparents q)).trans (remove_spares hv₂ hplace fun h => hout (h.trans hq))

theorem replayRename_bypasses (hv : r.vfs.WellFormed) {src dst : Str}
    (hsrc : (∀ part ∈ components src, isDots part = false) ∧ ¬ components src <+: path)
    (hdst : (∀ part ∈ components dst, isDots part = false) ∧ ¬ components dst <+: path) :
    Bypasses g path r (r.replayRename g src dst) := by
  have hfrom (q : List Str) : Spares g r.vfs (r.vfs.ensureParentDirs g src).2 q := ensureParentDirs_spares hv hsrc.1
  have hv₁ := hv.ensureParentDirs (g := g) src
  unfold replayRename
  split
  · rename_i hpath
    rw [hpath] at hfrom hv₁
    exact .of_spares hv₁ (fun q _ => hfrom q) fun _ => rfl
  · rename_i fromParent fromName v₁ hpath
    rw [hpath] at hfrom hv₁
    have hto (q : List Str) : Spares g v₁ (v₁.ensureParentDirs g dst).2 q := ensureParentDirs_spares hv₁ hdst.1
    have hv₂ := hv₁.ensureParentDirs (g := g) dst
    split
    · rename_i hpath'
      rw [hpath'] at hto hv₂
      exact .of_spares hv₂ (fun q _ => (hfrom q).trans (hto q)) fun _ => rfl
    · rename_i toParent toName v₂ hpath'
      rw [hpath'] at hto hv₂
      obtain ⟨fromAbove, hfromParts, hfromPlace, -⟩ := ensureParentDirs_place hv hsrc.1 hpath
      obtain ⟨toAbove, htoParts, htoPlace, -⟩ := ensureParentDirs_place hv₁ hdst.1 hpath'
      rw [hfromParts] at hsrc
      rw [htoParts] at hdst
      refine .of_spares (hv₂.rename (g := g) fromParent fromName toParent toName) (fun q hq => ?_) fun _ => rfl
      exact ((hfrom q).trans (hto q)).trans (rename_spares hv₂ ((hto fromAbove).node hfromPlace) htoPlace
        (fun h => hsrc.2 (h.trans hq)) fun h => hdst.2 (h.trans hq))

theorem replayPayload_bypasses (hv : r.vfs.WellFormed) {payload : WalPayload} (hapart : payload.Apart path)
    (hfresh : payload.FreshDir g r) (hreplay : r.replayPayload g payload = .ok r') : Bypasses g path r r' := by
  have hrecorded {p : Str} {r' : Replay} (h : Bypasses g path (r.record p) r') : Bypasses g path r r' :=
    h.after (fun _ _ => .refl hv) (record_isStaged r.staging p)
  cases payload with
  | header _ =>
    obtain rfl := Except.ok.inj hreplay
    exact .of_spares hv (fun _ _ => .refl hv) fun _ => rfl
  | createFile create =>
    obtain ⟨hdots, hout⟩ := hapart create.path List.mem_cons_self
    simp only [replayPayload, replayCreateFile] at hreplay
    cases hat : createAt g (r.record create.path) create.path (createMode create.inodeType) with
    | error e => simp [hat, Except.map] at hreplay
    | ok p =>
      simp only [hat, Except.map, Except.ok.injEq] at hreplay
      exact hreplay ▸ hrecorded (createAt_bypasses (r := r.record create.path) hv hdots hout hat).1
  | mkdir p =>
    obtain ⟨hdots, -⟩ := hapart p List.mem_cons_self
    have hparents (q : List Str) : Spares g r.vfs (r.vfs.ensureParentDirs g p).2 q := ensureParentDirs_spares hv hdots
    have hv₁ := hv.ensureParentDirs (g := g) p
    simp only [replayPayload, replayMkdir, record_vfs] at hreplay
    split at hreplay
    · simp at hreplay
    · rename_i parentId name v₁ hpath
      rw [hpath] at hparents hv₁
      obtain ⟨above, -, habove, hname⟩ := ensureParentDirs_place hv hdots hpath
      have hmade (q : List Str) : Spares g v₁ (v₁.mkdir g parentId name).2 q :=
        mkdir_spares hv₁ habove hname (hfresh parentId name v₁ hpath)
      have hv₂ := hv₁.mkdir (g := g) parentId name
      split at hreplay
      · simp at hreplay
      · rename_i hdir
        rw [hdir] at hmade hv₂
        obtain rfl := Except.ok.inj hreplay
        exact .of_spares hv₂ (fun q _ => (hparents q).trans (hmade q)) (record_isStaged r.staging p)
  | write p offset data =>
    obtain ⟨hdots, hout⟩ := hapart p List.mem_cons_self
    have hlookup (q : List Str) : Spares g r.vfs (r.vfs.lookupPath g p).2 q := lookupPath_spares hv p
    have hv₁ := hv.lookupPath (g := g) p
    simp only [replayPayload, replayWrite, record_vfs] at hreplay
    split at hreplay
    · rename_i id v₁ hpath
      rw [hpath] at hlookup hv₁
      have hfound : Bypasses g path (r.record p) { r.record p with vfs := v₁ } :=
        .of_spares hv₁ (fun q _ => hlookup q) fun _ => rfl
      exact hrecorded (hfound.writes hout (lookupPath_place hv hdots hpath) hreplay)
    · rename_i e v₁ hpath
      rw [hpath] at hlookup hv₁
      split at hreplay
      · simp at hreplay
      · rename_i id r₁ hat
        obtain ⟨hmade, hplace⟩ := createAt_bypasses (r := { r.record p with vfs := v₁ }) hv₁ hdots hout hat
        have hafter : Bypasses g path (r.record p) r₁ := hmade.after (fun q _ => hlookup q) fun _ => rfl
        exact hrecorded (hafter.writes hout hplace hreplay)
  | truncate p newSize =>
    obtain ⟨hdots, hout⟩ := hapart p List.mem_cons_self
    have hlookup (q : List Str) : Spares g r.vfs (r.vfs.lookupPath g p).2 q := lookupPath_spares hv p
    have hv₁ := hv.lookupPath (g := g) p
    simp only [replayPayload, replayTruncate, record_vfs] at hreplay
    split at hreplay
    · rename_i hpath
      rw [hpath] at hlookup hv₁
      obtain rfl := Except.ok.inj hreplay
      exact .of_spares hv₁ (fun q _ => hlookup q) (record_isStaged r.staging p)
    · rename_i id v₁ hpath
      rw [hpath] at hlookup hv₁
      have hfound : Bypasses g path (r.record p) { r.record p with vfs := v₁ } :=
        .of_spares hv₁ (fun q _ => hlookup q) fun _ => rfl
      split at hreplay
      · simp at hreplay
      · rw [StagingStore.truncate_ok] at hreplay
        obtain rfl := Except.ok.inj hreplay
        exact hrecorded (hfound.stores hout (lookupPath_place hv hdots hpath))
  | remove p =>
    obtain ⟨hdots, hout⟩ := hapart p List.mem_cons_self
    obtain rfl := Except.ok.inj hreplay
    exact hrecorded (replayRemove_bypasses (r := r.record p) hv hdots hout)
  | rename src dst =>
    have hsrc := hapart src List.mem_cons_self
    have hdst := hapart dst (List.mem_cons_of_mem _ List.mem_cons_self)
    obtain rfl := Except.ok.inj hreplay
    have hmoved : Bypasses g path ((r.record src).record dst) (((r.record src).record dst).replayRename g src dst) :=
      replayRename_bypasses (r := (r.record src).record dst) hv hsrc hdst
    exact hrecorded (hmoved.after (fun _ _ => .refl hv) (record_isStaged _ dst))

end Replay

/-! ## Over a replay -/

/-- The way to the path is as it was, and nothing on it is staged. -/
structure Replay.Untouched (g : GitEngine) (v : VfsManager) (path : List Str) (r : Replay) : Prop where
  wellFormed : r.vfs.WellFormed
  spares : ∀ q, q <+: path → Spares g v r.vfs q
  known : ∀ i, r.staging.isStaged i = true → ∃ n, r.vfs.nodes i = some n
  unstaged : ∀ q, q <+: path → ∀ a, placeAt g v q = some a → ∀ i, placeAt g r.vfs q = some (.node i) →
    r.staging.isStaged i = false

namespace Replay.Untouched

theorem new (g : GitEngine) (rootOid : Str) (path : List Str) :
    (Replay.new rootOid).Untouched g (VfsManager.new rootOid) path where
  wellFormed := .new rootOid
  spares := fun _ _ => .refl (.new rootOid)
  known := fun _ hi => by cases hi
  unstaged := fun _ _ _ _ _ _ => rfl

theorem bypasses (h : r.Untouched g v path) (hbypass : r.Bypasses g path r') : r'.Untouched g v path where
  wellFormed := hbypass.wellFormed
  spares := fun q hq => (h.spares q hq).trans (hbypass.spares q hq)
  known := fun i hi => by
    rcases hbypass.staged i hi with hold | ⟨q, -, hplace⟩
    · obtain ⟨n, hn⟩ := h.known i hold
      exact (hbypass.spares [] (List.nil_prefix)).nodes i n hn
    · exact placeAt_known hbypass.wellFormed hplace
  unstaged := fun q hq a ha i hi => by
    by_contra hstaged
    rw [Bool.not_eq_false] at hstaged
    obtain ⟨b, hb, -⟩ := (h.spares q hq).place a ha
    obtain ⟨c, hc, hseen⟩ := (hbypass.spares q hq).place b hb
    rw [hi, Option.some.injEq] at hc
    rcases hbypass.staged i hstaged with hold | ⟨q', hq', hplace⟩
    · -- what was staged was somewhere else, and has not moved here
      rcases hseen.inode i hc.symm with rfl | hnew
      · rw [h.unstaged q hq a ha i hb] at hold
        cases hold
      · obtain ⟨n, hn⟩ := h.known i hold
        rw [hnew] at hn
        cases hn
    · exact hq' (placeAt_unique hbypass.wellFormed hplace hi ▸ hq)

theorem replayed {rootOid : Str} {entries : List WalEntry}
    (hmeets : Run.Meets (replayStep g) (fun r entry => entry.Orderly g r) (Replay.new rootOid) entries)
    (hapart : ∀ entry ∈ entries, ∀ payload, entry.payload = some payload → payload.Apart path)
    (hreplay : replayWalEntries g entries (Replay.new rootOid) = .ok r) :
    r.Untouched g (VfsManager.new rootOid) path := by
  have hstep : ∀ (r : Replay) (entry : WalEntry) (r' : Replay), r.Untouched g (VfsManager.new rootOid) path →
      (entry.Orderly g r ∧ ∀ payload, entry.payload = some payload → payload.Apart path) →
      replayStep g r entry = some r' → r'.Untouched g (VfsManager.new rootOid) path := by
    intro r entry r' h hok hstep
    cases hpayload : entry.payload with
    | none =>
      simp only [replayStep, hpayload, Option.some.injEq] at hstep
      exact hstep ▸ h
    | some payload =>
      exact h.bypasses (Replay.replayPayload_bypasses h.wellFormed (hok.2 payload hpayload)
        (hok.1 payload hpayload).1 ((replayStep_some hpayload).mp hstep))
  have hboth := Run.meets_and hmeets (Run.meets_of_mem _ hapart)
  exact Run.invariant hstep hboth (run_replayStep.mpr hreplay) (new g rootOid path)

end Replay.Untouched

/-! ## In the commit -/

/-- On the way to the path is what was there, and nothing else but empty directories. -/
structure Retains (g : GitEngine) (v w : VfsManager) (path : List Str) : Prop where
  seen : ∀ q, q <+: path → ∀ a s, placeAt g v q = some a → v.shown a = some s →
    ∃ b s', placeAt g w q = some b ∧ w.shown b = some s' ∧ s.Keeps s'
  back : ∀ q, q <+: path → ∀ b, placeAt g w q = some b → (∃ a, placeAt g v q = some a) ∨ EmptyDir w b

theorem StampedFrom.shown_dir {staging : StagingStore} (h : StampedFrom staging v v₁) {a : Place} {s : Shown}
    (hs : v.shown a = some s) (hdir : s.isDir = true) : v₁.shown a = some s := by
  cases a with
  | entry e => exact hs
  | node i =>
    obtain ⟨n, hn, rfl⟩ := Option.map_eq_some_iff.mp hs
    simp only [shown, h.dir hn hdir, Option.map_some]

theorem StampedFrom.shown_unstaged {staging : StagingStore} (h : StampedFrom staging v v₁) {a : Place}
    (ha : ∀ i, a = .node i → staging.isStaged i = false) : v₁.shown a = v.shown a := by
  cases a with
  | entry e => rfl
  | node i =>
    have hi : i ∉ staging.listStagedNodes := by
      intro hmem
      have hstaged : staging.isStaged i = true := AList.lookup_isSome.mpr hmem
      rw [ha i rfl] at hstaged
      cases hstaged
    simp only [shown, h.nodes]
    cases v.nodes i with
    | none => rfl
    | some n => rw [Option.map_some, stampedNode, if_neg fun h => hi h.1]

theorem Replay.Untouched.retains (h : r.Untouched g v path) {dirty : List Nat}
    (hstamped : StampedFrom r.staging r.vfs v₁) (hv₁ : v₁.WellFormed) (hpop : Populates g dirty v₁ w) :
    Retains g v w path := by
  obtain ⟨root, hroot, -⟩ := hv₁.root
  have hsame (q : List Str) := hpop.sameTree rootInode root hroot q
  constructor
  · intro q hq a s ha hs
    obtain ⟨b, hb, ⟨s₀, s₁, hs₀, hs₁, hk⟩, -⟩ := (h.spares q hq).place a ha
    rw [hs, Option.some.injEq] at hs₀
    subst hs₀
    have hshown : (placeFrom g v₁ (.node rootInode) q).bind v₁.shown = some s₁ := by
      rw [show placeFrom g v₁ (.node rootInode) q = _ from (hstamped.placeAt q).trans hb, Option.bind_some,
        hstamped.shown_unstaged fun i hi => h.unstaged q hq a ha i (hi ▸ hb), hs₁]
    have hrel := hsame q
    rw [hshown] at hrel
    obtain ⟨s₂, hs₂, hk'⟩ := Walk.rel_some_left hrel
    obtain ⟨c, hc, hcs⟩ := Option.bind_eq_some_iff.mp hs₂
    exact ⟨c, s₂, hc, hcs, hk.trans hk'⟩
  · intro q hq b hb
    obtain ⟨s, hs⟩ := shown_of_known (placeAt_known hpop.wellFormed hb)
    have hrel := hsame q
    rw [show placeFrom g w (.node rootInode) q = _ from hb, Option.bind_some, hs] at hrel
    obtain ⟨s₁, hs₁, hk⟩ := Walk.rel_some_right hrel
    obtain ⟨c, hc, hcs⟩ := Option.bind_eq_some_iff.mp hs₁
    have hplace : placeAt g r.vfs q = some c := (hstamped.placeAt q).symm.trans hc
    refine ((h.spares q hq).back c hplace).imp_right fun ⟨s₀, hs₀, hdir, hoid⟩ => ?_
    rw [hstamped.shown_dir hs₀ hdir, Option.some.injEq] at hcs
    subst hcs
    exact ⟨s, hs, hk.isDir.trans hdir, hk.oid.trans hoid⟩

/-- The file at a path below a node as a commit has it. -/
def enteredFile (g : GitEngine) (w : VfsManager) (dirty : List Nat) (i : Nat) (path : List Str) :
    Option (TreeEntryMode × Str) :=
  (w.nodes i).bind fun c =>
    if c.isDir then
      if dirty.contains i then committedFile g w dirty i path else g.fileIn c.oid path
    else if path = [] then some (c.mode, c.oid) else none

theorem committedFile_cons {dirty : List Nat} {d : Nat} {name : Str} (rest : List Str) (hdots : isDots name = false) :
    committedFile g w dirty d (name :: rest) = (w.liveChild d name).bind fun i => enteredFile g w dirty i rest := by
  rw [committedFile, if_neg (Bool.eq_false_iff.mp hdots)]
  rfl

namespace Retains

variable {dirty : List Nat}

theorem emptyDir_node {i : Nat} (h : EmptyDir w (.node i)) : ∃ c, w.nodes i = some c ∧ c.isDir = true ∧ c.oid = [] := by
  obtain ⟨s, hs, hdir, hoid⟩ := h
  obtain ⟨c, hc, rfl⟩ := Option.map_eq_some_iff.mp hs
  exact ⟨c, hc, hdir, hoid⟩

/-- Where there was nothing a commit has no file. -/
theorem entered_none (h : Retains g v w path) (hempty : treeEntries g [] = [])
    (hlisted : ∀ d ∈ dirty, ∃ ids, w.dirChildren d = some ids) {done rest : List Str} {i : Nat}
    (hpath : done ++ rest = path) (hi : placeAt g w done = some (.node i)) (hnone : placeAt g v done = none) :
    enteredFile g w dirty i rest = none := by
  induction rest generalizing done i with
  | nil =>
    obtain ⟨a, ha⟩ | hdir := h.back done ⟨[], hpath⟩ _ hi
    · rw [hnone] at ha
      cases ha
    · obtain ⟨c, hc, hisDir, -⟩ := emptyDir_node hdir
      rw [enteredFile, hc, Option.bind_some, if_pos hisDir]
      split_ifs <;> rfl
  | cons name rest ih =>
    obtain ⟨a, ha⟩ | hdir := h.back done ⟨name :: rest, hpath⟩ _ hi
    · rw [hnone] at ha
      cases ha
    · obtain ⟨c, hc, hisDir, hoid⟩ := emptyDir_node hdir
      rw [enteredFile, hc, Option.bind_some, if_pos hisDir, hoid, fileIn_of_noEntries hempty]
      by_cases hdirty : i ∈ dirty
      · obtain ⟨ids, hids⟩ := hlisted i hdirty
        rw [if_pos (List.contains_iff_mem.mpr hdirty)]
        cases hdots : isDots name with
        | true =>
          rw [committedFile, if_pos hdots]
        | false =>
          rw [committedFile_cons rest hdots]
          cases hlive : w.liveChild i name with
          | none => rfl
          | some j =>
            have hconcat : done ++ [name] ++ rest = path := by rw [List.append_assoc]; exact hpath
            refine ih hconcat (placeAt_child hi hids hdots hlive) ?_
            rw [placeAt, placeFrom] at hnone ⊢
            rw [Walk.walk_concat, hnone]
            rfl
      · rw [if_neg fun hmem => hdirty (List.contains_iff_mem.mp hmem)]

theorem childAt_new {rootOid name : Str} {a b : Place} (h : childAt g (VfsManager.new rootOid) a name = some b) :
    ∃ e, b = .entry e := by
  cases b with
  | entry e => exact ⟨e, rfl⟩
  | node i =>
    obtain ⟨d, -, hlive, -⟩ := childAt_node h
    obtain ⟨hmap, -⟩ := liveChild_eq_some.mp hlive
    cases hmap

/-- The files on the way to the path are those of the base. -/
theorem committedFile_eq {rootOid : Str} (h : Retains g (VfsManager.new rootOid) w path)
    (hempty : treeEntries g [] = []) (hlisted : ∀ d ∈ dirty, ∃ ids, w.dirChildren d = some ids) (hw : w.WellFormed)
    {done rest : List Str} {a : Place} {d : Nat} {ids : List Nat} (hpath : done ++ rest = path)
    (ha : placeAt g (VfsManager.new rootOid) done = some a) (hd : placeAt g w done = some (.node d))
    (hids : w.dirChildren d = some ids) :
    committedFile g w dirty d rest = fileFrom g (VfsManager.new rootOid) a rest := by
  induction rest generalizing done a d ids with
  | nil =>
    obtain ⟨s, hs⟩ := shown_of_known (placeAt_known (.new rootOid) ha)
    obtain ⟨b, s', hb, hs', hk⟩ := h.seen done ⟨[], hpath⟩ a s ha hs
    rw [hd, Option.some.injEq] at hb
    subst hb
    obtain ⟨-, ⟨n, hn, hdir⟩, -⟩ := hw.listed d ids hids
    simp only [shown, hn, Option.map_some, Option.some.injEq] at hs'
    subst hs'
    have hdir' : s.isDir = true := hk.isDir.symm.trans hdir
    show none = fileOf (VfsManager.new rootOid) a
    rw [fileOf, hs, Option.bind_some, if_pos hdir']
  | cons name rest ih =>
    have hconcat : done ++ [name] ++ rest = path := by rw [List.append_assoc]; exact hpath
    rw [fileFrom_cons]
    cases hdots : isDots name with
    | true =>
      rw [committedFile, if_pos hdots, childAt_dots hdots]
      rfl
    | false =>
      rw [committedFile_cons rest hdots]
      have hbase : placeAt g (VfsManager.new rootOid) (done ++ [name]) =
          childAt g (VfsManager.new rootOid) a name := by
        rw [placeAt, placeFrom] at ha ⊢
        rw [Walk.walk_concat, ha, Option.bind_some]
      have hhere : placeAt g w (done ++ [name]) = (w.liveChild d name).map .node := by
        rw [placeAt, placeFrom] at hd ⊢
        rw [Walk.walk_concat, hd, Option.bind_some, childAt_listed hdots hids]
      cases hb : childAt g (VfsManager.new rootOid) a name with
      | none =>
        cases hlive : w.liveChild d name with
        | none => rfl
        | some i =>
          rw [hlive, Option.map_some] at hhere
          exact h.entered_none hempty hlisted hconcat hhere (hbase.trans hb)
      | some b =>
        obtain ⟨e, rfl⟩ := childAt_new hb
        obtain ⟨b', s', hb', hs', hk⟩ := h.seen (done ++ [name]) ⟨rest, hconcat⟩ _ _ (hbase.trans hb) rfl
        rw [hhere, Option.map_eq_some_iff] at hb'
        obtain ⟨i, hlive, rfl⟩ := hb'
        obtain ⟨c, hc, rfl⟩ := Option.map_eq_some_iff.mp hs'
        have hisDir : c.isDir = e.mode.isDir := hk.isDir
        have hoid : c.oid = e.oid := hk.oid
        have hmode : c.mode = e.mode := hk.mode
        rw [hlive, Option.bind_some, Option.bind_some, enteredFile, hc, Option.bind_some]
        rw [hlive, Option.map_some] at hhere
        by_cases hdirty : i ∈ dirty
        · obtain ⟨ids', hids'⟩ := hlisted i hdirty
          obtain ⟨-, ⟨c', hc', hdir⟩, -⟩ := hw.listed i ids' hids'
          rw [hc, Option.some.injEq] at hc'
          rw [if_pos (hc' ▸ hdir), if_pos (List.contains_iff_mem.mpr hdirty)]
          exact ih hconcat (hbase.trans hb) hhere hids'
        · rw [if_neg fun hmem => hdirty (List.contains_iff_mem.mp hmem), fileFrom_entry, hisDir, hoid, hmode]

end Retains

end GitNfs
