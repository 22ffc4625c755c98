import GitNfs.Commits
import GitNfs.Nfs.Found
import GitNfs.Wal.Crashed
import GitNfs.Wal.Exact

/-! # The next server

What is left of the log of a server that died is committed, and the next server starts from the commit. It finds
the files that the server before it showed.
-/

namespace GitNfs

open VfsManager

/-! ## What is logged of a removal -/

namespace Fs

variable {g : GitEngine} {fs fs' : Fs} {now d : Nat} {name : Str}

theorem childPath_underPath {path : Str} (h : fs.childPath d name = some path) : ∃ p, path = underPath p name := by
  obtain ⟨r, -, rfl⟩ := Option.map_eq_some_iff.mp h
  rcases r with e | (_ | ⟨c, cs⟩)
  · exact ⟨[], rfl⟩
  · exact ⟨[], rfl⟩
  · exact ⟨c :: cs, rfl⟩

theorem logChild_payload {α : Type} {payloadOf : Str → WalPayload} {answer : Fs → α} {hd : Handled α}
    (heq : fs.logChild now d name payloadOf answer = some hd) {payload : WalPayload}
    (hlogged : hd.logged = some payload) : ∃ p, payload = payloadOf (underPath p name) := by
  obtain ⟨path, hpath, rfl⟩ := Option.map_eq_some_iff.mp heq
  obtain ⟨p, rfl⟩ := childPath_underPath hpath
  exact ⟨p, (Option.some.inj hlogged).symm⟩

theorem logFile_payload {node : VfsNode} {payloadOf : Str → WalPayload} {hd : Handled Fattr}
    (heq : fs.logFile g now node payloadOf = some hd) {payload : WalPayload} (hlogged : hd.logged = some payload) :
    ∃ path, payload = payloadOf path := by
  unfold logFile at heq
  split at heq
  · cases heq
  · obtain rfl := Option.some.inj heq
    cases hlogged
  · rename_i path _
    obtain rfl := Option.some.inj heq
    exact ⟨path, (Option.some.inj hlogged).symm⟩

theorem createNode_payload {α : Type} {filename : Bytes} {answer : VfsNode → Fs → α} {hd : Handled α}
    (heq : fs.createNode g now d filename none answer = some hd) {payload : WalPayload}
    (hlogged : hd.logged = some payload) : ∃ create, payload = .createFile create := by
  unfold createNode at heq
  simp only at heq
  split at heq
  · obtain rfl := Option.some.inj heq
    cases hlogged
  · split at heq
    · obtain rfl := Option.some.inj heq
      cases hlogged
    · obtain ⟨p, rfl⟩ := logChild_payload heq hlogged
      exact ⟨_, rfl⟩

/-- What is removed is logged by its name in its directory. -/
theorem handle_removesChild {op : NfsOp} (hnames : ∀ name ∈ op.names, ValidName name) {hd : Handled Unit}
    (heq : fs.handle g now none op = some hd) {payload : WalPayload} (hlogged : hd.logged = some payload) :
    payload.RemovesChild := by
  cases op with
  | create d filename =>
    obtain ⟨hd', hop, rfl⟩ := Option.map_eq_some_iff.mp heq
    obtain ⟨_, rfl⟩ := createNode_payload hop hlogged
    trivial
  | createExclusive d filename =>
    obtain ⟨hd', hop, rfl⟩ := Option.map_eq_some_iff.mp heq
    obtain ⟨_, rfl⟩ := createNode_payload hop hlogged
    trivial
  | mkdir d dirname =>
    obtain ⟨hd', hop, rfl⟩ := Option.map_eq_some_iff.mp heq
    unfold Fs.mkdir at hop
    simp only at hop
    split at hop
    · obtain rfl := Option.some.inj hop
      cases hlogged
    · obtain ⟨_, rfl⟩ := logChild_payload hop hlogged
      trivial
  | write id offset data =>
    obtain ⟨hd', hop, rfl⟩ := Option.map_eq_some_iff.mp heq
    unfold Fs.write at hop
    split at hop
    · obtain rfl := Option.some.inj hop
      cases hlogged
    · obtain ⟨_, rfl⟩ := logFile_payload hop hlogged
      trivial
  | setattr id size =>
    obtain ⟨hd', hop, rfl⟩ := Option.map_eq_some_iff.mp heq
    unfold Fs.setattr at hop
    split at hop
    · split at hop <;> obtain rfl := Option.some.inj hop <;> cases hlogged
    · split at hop
      · obtain rfl := Option.some.inj hop
        cases hlogged
      · obtain ⟨_, rfl⟩ := logFile_payload hop hlogged
        trivial
  | remove d filename =>
    have hname := hnames _ List.mem_cons_self
    have hop : fs.remove g now d filename = some hd := heq
    unfold Fs.remove at hop
    simp only at hop
    split at hop
    · obtain rfl := Option.some.inj hop
      cases hlogged
    · obtain ⟨p, rfl⟩ := logChild_payload hop hlogged
      refine ⟨fromUtf8Lossy filename, ?_, isDots_eq_false.mpr ⟨hname.2.1, hname.2.2.1⟩⟩
      rw [components_underPath hname, List.getLast?_concat]
  | rename fd fn td tn =>
    have hop : fs.rename g now fd fn td tn = some hd := heq
    unfold Fs.rename at hop
    simp only at hop
    split at hop
    · split at hop
      · obtain rfl := Option.some.inj hop
        cases hlogged
      · obtain rfl := Option.some.inj hop
        obtain rfl := Option.some.inj hlogged
        trivial
    · cases hop

theorem serveAll_removesChild {ops : List (Nat × NfsOp)} {log : List WalPayload}
    (hnames : ∀ op ∈ ops, ∀ name ∈ op.2.names, ValidName name) (h : fs.serveAll g ops = some (fs', log)) :
    ∀ payload ∈ log, payload.RemovesChild := by
  induction ops generalizing fs log with
  | nil =>
    simp only [serveAll, Option.some.injEq, Prod.mk.injEq] at h
    obtain ⟨-, rfl⟩ := h
    exact fun _ hmem => absurd hmem List.not_mem_nil
  | cons op ops ih =>
    obtain ⟨now, op⟩ := op
    obtain ⟨hd, heq, hrest⟩ := Option.bind_eq_some_iff.mp h
    obtain ⟨⟨fs₂, later⟩, hrun, hlog⟩ := Option.map_eq_some_iff.mp hrest
    obtain ⟨rfl, rfl⟩ := Prod.mk.inj hlog
    intro payload hmem
    rcases List.mem_append.mp hmem with hmem | hmem
    · exact handle_removesChild (hnames (now, op) List.mem_cons_self) heq (Option.mem_toList.mp hmem)
    · exact ih (fun op hop => hnames op (List.mem_cons_of_mem _ hop)) hrun payload hmem

end Fs

/-! ## The files that are found -/

/-- The file that lookups find at the end of a path: its mode, and its bytes if they can be fetched. -/
def Fs.fileFound (g : GitEngine) (fs : Fs) (path : List Str) : Option (TreeEntryMode × Option Bytes) :=
  (fs.foundAt g path).bind fun f => if f.1.isDir then none else some (f.1.mode, f.1.bytes)

/-- The file of a later server: of the same mode, and with the bytes if they could be fetched before. -/
def SameFile (file file' : TreeEntryMode × Option Bytes) : Prop :=
  file'.1 = file.1 ∧ ∀ bytes, file.2 = some bytes → file'.2 = some bytes

/-- No blob that was staged has the id of another object of the commit, and no blob of the commit the id of another
blob of the base. -/
structure BlobsApart (g : GitEngine) (staging : StagingStore) (objects : List GitObjectToPack) : Prop where
  packed : ∀ i ∈ staging.listStagedNodes, ∀ content, staging.files i = some content → ∀ obj ∈ objects,
    obj.oid = computeGitSha1 .blob content → obj.objType = .blob ∧ obj.data = content
  loaded : ∀ obj ∈ objects, obj.objType = .blob → ∀ data, g.blobs obj.oid = some data → obj.data = data

variable {g : GitEngine} {r : Replay}

/-- The file at a place. -/
def Fs.fileFoundOf (g : GitEngine) (fs : Fs) (place : Place) : Option (TreeEntryMode × Option Bytes) :=
  (fs.foundOf g place).bind fun f => if f.isDir then none else some (f.mode, f.bytes)

theorem Fs.fileFoundOf_node (fs : Fs) (i : Nat) :
    fs.fileFoundOf g (.node i) =
      (fs.vfs.nodes i).bind fun n => if n.isDir then none else some (n.mode, fs.fileBytes g i n.oid) := by
  unfold fileFoundOf foundOf
  simp only
  cases fs.vfs.nodes i with
  | none => rfl
  | some n => cases hdir : n.isDir <;> simp [hdir]

theorem Fs.fileFoundOf_entry (fs : Fs) (e : GitTreeEntry) :
    fs.fileFoundOf g (.entry e) = if e.mode.isDir then none else some (e.mode, blobBytes g e.oid) := by
  unfold fileFoundOf foundOf
  cases hdir : e.mode.isDir <;> simp [hdir]

theorem Fs.Coherent.fileFound {fs : Fs} (hc : fs.Coherent) {path : List Str}
    (hdots : ∀ name ∈ path, isDots name = false) :
    fs.fileFound g path = (placeAt g fs.vfs path).bind (fs.fileFoundOf g) := by
  unfold Fs.fileFoundOf
  rw [← Option.bind_assoc, ← hc.foundAt hdots, Option.bind_map]
  rfl

theorem fileOf_entry {v : VfsManager} (e : GitTreeEntry) :
    v.fileOf (.entry e) = if e.mode.isDir then none else some (e.mode, e.oid) := rfl

/-- A server that has staged nothing finds the files of its tables. -/
theorem fileFound_new (rootOid : Str) {path : List Str} (hdots : ∀ name ∈ path, isDots name = false) :
    (Fs.new rootOid).fileFound g path =
      (VfsManager.fileAt g (VfsManager.new rootOid) path).map fun file => (file.1, Fs.blobBytes g file.2) := by
  rw [(Fs.Sound.new rootOid).coherent.fileFound hdots]
  unfold VfsManager.fileAt fileFrom
  rw [Option.map_bind]
  unfold placeAt
  congr 1
  funext place
  cases place with
  | entry e =>
    rw [Fs.fileFoundOf_entry, Function.comp, fileOf_entry]
    cases e.mode.isDir <;> rfl
  | node i =>
    rw [Fs.fileFoundOf_node, Function.comp, fileOf_node]
    show ((VfsManager.new rootOid).nodes i).bind _ = _
    cases (VfsManager.new rootOid).nodes i with
    | none => rfl
    | some n => cases hdir : n.isDir <;> simp [hdir, Fs.fileBytes, Fs.new, StagingStore.isStaged, StagingStore.new]

/-- The files of a replay, for an engine that has their blobs. -/
theorem Replay.fileFound_fileAt {g' : GitEngine} (hc : r.fs.Coherent) {path : List Str}
    (hdots : ∀ name ∈ path, isDots name = false) (hpath : PlainPath path)
    (hkept : ∀ oid bytes, Fs.blobBytes g oid = some bytes → Fs.blobBytes g' oid = some bytes)
    (hstaged : ∀ i n content, r.vfs.getNode i = some n → isAppleMetadata n.name = false →
      r.staging.getStagedContent i = .ok (some content) →
        Fs.blobBytes g' (computeGitSha1 .blob content) = some content) :
    Option.Rel SameFile (r.fs.fileFound g path)
      ((r.fileAt g path).map fun file => (file.1, Fs.blobBytes g' file.2)) := by
  rw [hc.fileFound hdots]
  unfold Replay.fileAt
  show Option.Rel SameFile ((placeAt g r.vfs path).bind _) _
  cases hplace : placeAt g r.vfs path with
  | none => exact .none
  | some place =>
    rw [Option.bind_some, Option.bind_some]
    cases place with
    | entry e =>
      simp only [Fs.fileFoundOf_entry, fileOf_entry]
      cases e.mode.isDir with
      | true => exact .none
      | false => exact .some ⟨rfl, fun bytes hbytes => hkept _ _ hbytes⟩
    | node i =>
      simp only [Fs.fileFoundOf_node, fileOf_node]
      show Option.Rel SameFile ((r.vfs.nodes i).bind _) _
      cases hn : r.vfs.nodes i with
      | none => exact .none
      | some n =>
        rw [Option.bind_some, Option.bind_some]
        cases hdir : n.isDir with
        | true => exact .none
        | false =>
          refine .some ⟨rfl, fun bytes hbytes => ?_⟩
          obtain ⟨hlive, hplain⟩ := plainPath_file hc.wellFormed hpath hplace hn hdir
          simp only at hbytes ⊢
          unfold Fs.fileBytes at hbytes
          by_cases hst : r.staging.isStaged i = true
          · have hst' : r.fs.staging.isStaged i = true := hst
            rw [if_pos hst'] at hbytes
            have hcontent : r.staging.getStagedContent i = .ok (some bytes) := by
              unfold StagingStore.getStagedContent
              rw [if_pos hst, show r.staging.files i = some bytes from hbytes]
            unfold StagingStore.blobOf
            rw [hcontent]
            exact hstaged i n bytes hlive hplain hcontent
          · have hst' : ¬ r.fs.staging.isStaged i = true := hst
            rw [if_neg hst'] at hbytes
            rw [StagingStore.blobOf_unstaged (Bool.eq_false_iff.mpr hst)]
            exact hkept _ _ hbytes

/-! ## The blobs of a commit -/

theorem StagingStore.staged_content {st : StagingStore} {i : Nat} {content : Bytes}
    (h : st.getStagedContent i = .ok (some content)) : st.isStaged i = true ∧ st.files i = some content := by
  unfold getStagedContent at h
  split_ifs at h with hst
  · split at h
    · rename_i content' hfile
      rw [hfile, Option.some.inj (Except.ok.inj h)]
      exact ⟨hst, rfl⟩
    · cases h
  · cases h

theorem stagedBlobs_keeps {staging : StagingStore} {ids : List Nat} {v v₁ : VfsManager} {objs objs' : NewObjects}
    (h : stagedBlobs staging ids v objs = .ok (v₁, objs')) {o : Str} (ho : o ∈ objs) : o ∈ objs' := by
  induction ids generalizing v objs with
  | nil =>
    simp only [stagedBlobs, Except.ok.injEq, Prod.mk.injEq] at h
    exact h.2 ▸ ho
  | cons id ids ih =>
    rw [stagedBlobs] at h
    split at h
    · exact ih h ho
    · split_ifs at h
      · exact ih h ho
      · split at h
        · simp at h
        · exact ih h ho
        · exact ih h ((AList.mem_insert _).mpr (.inr ho))

/-- The blob of a staged file is among the objects. -/
theorem stagedBlobs_blob {staging : StagingStore} {ids : List Nat} {v v₁ : VfsManager} {objs objs' : NewObjects}
    (h : stagedBlobs staging ids v objs = .ok (v₁, objs')) {i : Nat} (hi : i ∈ ids) {n : VfsNode}
    (hn : v.getNode i = some n) (hname : isAppleMetadata n.name = false) {content : Bytes}
    (hcontent : staging.getStagedContent i = .ok (some content)) : computeGitSha1 .blob content ∈ objs' := by
  induction ids generalizing v objs n with
  | nil => exact absurd hi List.not_mem_nil
  | cons id ids ih =>
    rw [stagedBlobs] at h
    rcases List.mem_cons.mp hi with rfl | hi
    · simp only [hn, hname, Bool.false_eq_true, if_false, hcontent] at h
      exact stagedBlobs_keeps h ((AList.mem_insert _).mpr (.inl rfl))
    · split at h
      · exact ih h hi hn hname
      · split_ifs at h
        · exact ih h hi hn hname
        · split at h
          · simp at h
          · exact ih h hi hn hname
          · rename_i content' _
            obtain ⟨oid, hn'⟩ := (Stamped.setOid v id (computeGitSha1 .blob content')).getNode hn
            exact ih h hi hn' hname

theorem rebuildGitObjects_blob {base author message : Str} {timestamp : Nat} {rebuilt : RebuiltObjects}
    (h : r.Ready g) (hrebuild : rebuildGitObjects r.vfs r.staging g base author message timestamp = some (.ok rebuilt))
    {i : Nat} {n : VfsNode} (hn : r.vfs.getNode i = some n) (hname : isAppleMetadata n.name = false) {content : Bytes}
    (hcontent : r.staging.getStagedContent i = .ok (some content)) :
    ∃ obj ∈ rebuilt.objects, obj.oid = computeGitSha1 .blob content := by
  obtain ⟨v₁, objs, dirty, w, objs', text, hblobs, -, hrec, -, hobjects⟩ := rebuildGitObjects_parts hrebuild
  obtain ⟨htidy, -⟩ := stagedBlobs_tidy h.tidy (fun k obj hk => by simp at hk) hblobs
  obtain ⟨-, -, -, -, hkinds⟩ := stagedBlobs_stamps hblobs
  have hstaged : i ∈ r.staging.listStagedNodes := AList.lookup_isSome.mp (StagingStore.staged_content hcontent).1
  have hwrites := rebuildTreeRecursive_commits _ _ _ _ _ _ htidy.wellFormed hrec
  obtain ⟨raw, below, -, -, hadds, -⟩ := hwrites.tree w (.refl w)
  have hmem := hadds.keeps _ (stagedBlobs_blob hblobs hstaged hn hname hcontent)
  rw [hobjects]
  by_cases hcommit : computeGitSha1 .blob content = rebuilt.commitOid
  · exact ⟨_, mem_values_insert.mpr (.inl rfl), hcommit.symm⟩
  · obtain ⟨obj, hobj⟩ := Option.isSome_iff_exists.mp (AList.lookup_isSome.mpr hmem)
    refine ⟨obj, mem_values_insert.mpr (.inr ⟨_, hcommit, hobj⟩), ?_⟩
    rcases hadds.only _ obj hobj with hold | ⟨raw', -, -, rfl⟩
    · exact ((hkinds _ obj hold).resolve_left (by simp)).2
    · rfl

section Engine

variable {objects : List GitObjectToPack} {dirLen : Option Nat} {commitOid rootOid oid : Str} {content : Bytes}

/-- A blob among the objects is served afterwards. -/
theorem applied_blob (hpacked : ∀ obj ∈ objects, obj.oid = oid → obj.objType = .blob ∧ obj.data = content)
    (hsome : g.blobs oid = some content ∨ ∃ obj ∈ objects, obj.oid = oid) :
    (objects.foldl (GitEngine.applyObject dirLen) g).blobs oid = some content := by
  induction objects generalizing g with
  | nil =>
    obtain hblob | ⟨obj, hobj, -⟩ := hsome
    · exact hblob
    · exact absurd hobj List.not_mem_nil
  | cons obj objects ih =>
    rw [List.foldl_cons]
    refine ih (fun o ho => hpacked o (List.mem_cons_of_mem _ ho)) ?_
    by_cases hobj : obj.oid = oid
    · obtain ⟨htype, hdata⟩ := hpacked obj List.mem_cons_self hobj
      left
      unfold GitEngine.applyObject
      simp only [htype, hdata, hobj, Function.update_self]
    · rcases hsome with hblob | ⟨o, ho, hoid⟩
      · exact .inl ((GitEngine.applyObject_blob fun _ => hobj).1.trans hblob)
      · rcases List.mem_cons.mp ho with rfl | ho
        · exact absurd hoid hobj
        · exact .inr ⟨o, ho, hoid⟩

/-- A blob that could be fetched can be fetched. -/
theorem applied_blob_kept (hloaded : ∀ obj ∈ objects, obj.objType = .blob → ∀ data, g.blobs obj.oid = some data →
      obj.data = data) {bytes : Bytes} (h : Fs.blobBytes g oid = some bytes) :
    Fs.blobBytes (g.applyRecoveredObjects dirLen commitOid rootOid objects) oid = some bytes := by
  unfold Fs.blobBytes at h ⊢
  split_ifs at h ⊢ with hoid
  · exact h
  · refine GitEngine.applyRecoveredObjects_keeps (I := fun g' => g'.blobs oid = some bytes) h fun o ho g' hg' => ?_
    by_cases hsame : o.objType = .blob ∧ o.oid = oid
    · obtain ⟨htype, rfl⟩ := hsame
      unfold GitEngine.applyObject
      simp only [htype, Function.update_self, hloaded o ho htype bytes h]
    · exact (GitEngine.applyObject_blob fun htype hoid => hsame ⟨htype, hoid⟩).1.trans hg'

end Engine

/-! ## The next server -/

def blobsApartIn (staging : StagingStore) (objects : List GitObjectToPack) : Bool :=
  staging.listStagedNodes.all fun i => (staging.files i).all fun content => objects.all fun obj =>
    decide (obj.oid ≠ computeGitSha1 .blob content) || decide (obj.objType = .blob ∧ obj.data = content)

theorem blobsApart_of_in {staging : StagingStore} {objects : List GitObjectToPack} (hnone : ∀ oid, g.blobs oid = none)
    (h : blobsApartIn staging objects = true) : BlobsApart g staging objects := by
  constructor
  · intro i hi content hcontent obj hobj hoid
    have hall := List.all_eq_true.mp h i hi
    rw [hcontent, Option.all_some] at hall
    have hone := List.all_eq_true.mp hall obj hobj
    rw [Bool.or_eq_true, decide_eq_true_eq, decide_eq_true_eq] at hone
    exact hone.resolve_left fun hne => hne hoid
  · intro obj _ _ data hdata
    rw [hnone] at hdata
    cases hdata

theorem short_orderly : Run.Meets (replayStep sampleTable) (fun r entry => entry.Orderly sampleTable r)
    (Replay.new sampleTopOid) (shortStart :: shortEntries.take 2) := by
  refine ⟨?_, fun _ _ => ⟨?_, fun _ _ => ⟨?_, fun _ _ => trivial⟩⟩⟩ <;>
    (intro payload hpayload; obtain rfl := Option.some.inj hpayload; exact ⟨trivial, by decide⟩)

end GitNfs
