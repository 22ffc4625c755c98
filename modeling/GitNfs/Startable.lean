import GitNfs.Git.Complete
import GitNfs.Publish

/-! # A repository that can always be started from

Any number of sessions publish commits to one bucket, object by object and in any order with each other, and any
of them may stop at any point. A server may start at any moment, on what is in the bucket then.
-/

namespace GitNfs

open GcsGitStorage (packObjectName)

/-! ## Commits that are published -/

def PackedCommit.packName (c : PackedCommit) : Str := packObjectName c.packSha ".pack".toList

def PackedCommit.idxName (c : PackedCommit) : Str := packObjectName c.packSha ".idx".toList

section

variable (zlib : Bytes → Bytes) (inflate : Bytes → Option (Bytes × Nat)) (content : Str → Option GitRawObject)
  (packs : Str → Option (Bytes × Bytes))

/-- The pack of a commit is the one that is made of these objects of the repository. -/
structure PackedFrom (objects : List GitObjectToPack) (c : PackedCommit) : Prop where
  made : createPackAndIndexBytes zlib objects = .ok (c.packData, c.idxData, c.packSha)
  packable : Packable objects
  inverts : Inverts zlib inflate objects
  lastShort : LastShort zlib objects
  content : ∀ obj ∈ objects, content obj.oid = some obj.raw
  named : packs c.packSha = some (c.packData, c.idxData)

/-- A commit whose pack has what it needs and the base does not. -/
structure Built (base : Str) (c : PackedCommit) : Prop where
  whole : ∃ rootOid, Whole content c.commitOid rootOid
  packed : ∃ objects, PackedFrom zlib inflate content packs objects c ∧ ∀ oid, Needs content c.commitOid oid →
    oid ∈ objects.map GitObjectToPack.oid ∨ Needs content base oid

/-- What holds of the bucket between any two writes. -/
structure Stocked (b : Bucket) : Prop where
  sound : b.Sound inflate content
  known : b.Known packs
  heads : b.HeadsComplete inflate content

end

variable {zlib : Bytes → Bytes} {inflate : Bytes → Option (Bytes × Nat)} {content : Str → Option GitRawObject}
  {packs : Str → Option (Bytes × Bytes)} {b : Bucket} {objects : List GitObjectToPack} {c : PackedCommit}

/-- The objects of a pack that is there with its index are held. -/
theorem PackedFrom.shelved (h : PackedFrom zlib inflate content packs objects c)
    (hpack : b.lookup c.packName = some c.packData) (hidx : b.lookup c.idxName = some c.idxData) :
    ∃ records, b.Shelved inflate content c.idxName records ∧
      ∀ obj ∈ objects, ∃ o, ObjectAt records o obj.raw := by
  have hname : Bucket.packOfIndex c.idxName = c.packName := Bucket.packOfIndex_pack c.packSha
  obtain ⟨index, entries, records, hparse, hindex, hindexed, hobjects⟩ :=
    h.packable.indexed h.inverts h.lastShort h.made c.packName
  refine ⟨records, ⟨⟨c.idxData, c.packData, index, entries, hidx, ?_, ?_, ?_, hindexed⟩, ?_⟩, ?_⟩
  · rw [hname, hpack]
  · rw [hname, hparse]
  · rw [hname, hindex]
  · intro o obj hobj
    obtain ⟨obj', hobj', rfl⟩ := (hobjects obj).mp ⟨o, hobj⟩
    have hoid : obj'.raw.oid = obj'.oid := (h.packable.named obj' hobj').symm
    rw [hoid]
    exact h.content obj' hobj'
  · intro obj hobj
    exact (hobjects obj.raw).mpr ⟨obj, hobj, rfl⟩

theorem PackedFrom.holds (h : PackedFrom zlib inflate content packs objects c) (hknown : b.Known packs)
    (hname : c.idxName ∈ b.idxNames) {oid : Str} (hoid : oid ∈ objects.map GitObjectToPack.oid) :
    b.Holds inflate content oid := by
  obtain ⟨hpack, hidx⟩ := hknown _ _ _ h.named hname
  obtain ⟨records, hshelved, hobjects⟩ := h.shelved hpack hidx
  obtain ⟨obj, hobj, rfl⟩ := List.mem_map.mp hoid
  obtain ⟨o, hat⟩ := hobjects obj hobj
  exact ⟨c.idxName, hname, records, o, obj.raw, hshelved, hat, (h.packable.named obj hobj).symm⟩

/-- A commit on a complete base is complete once its index is there. -/
theorem Built.complete {base : Str} (h : Built zlib inflate content packs base c)
    (hbase : b.Complete inflate content base) (hknown : b.Known packs) (hname : c.idxName ∈ b.idxNames) :
    b.Complete inflate content c.commitOid := by
  obtain ⟨objects, hpacked, hcovers⟩ := h.packed
  refine ⟨h.whole, ?_⟩
  intro oid hneeds
  rcases hcovers oid hneeds with hin | hbelow
  · exact hpacked.holds hknown hname hin
  · exact hbase.held oid hbelow

/-! ## One write of a commit -/

/-- An object that is neither a pack nor an index. -/
theorem Stocked.aside (h : Stocked inflate content packs b) {w : Str × Bytes} (hw : Bucket.Aside w.1)
    (hheads : (b.writeRapidObject w.1 w.2).HeadsComplete inflate content) :
    Stocked inflate content packs (b.writeRapidObject w.1 w.2) := by
  refine ⟨h.sound.write (h.known.spares (.aside hw)) ?_, h.known.write (.aside hw) ?_, hheads⟩
  · intro hname
    have hfront := (Bucket.mem_idxNames.mp hname).2.1
    exact absurd (Eq.trans (Eq.symm hw) hfront) Bool.false_ne_true
  · intro packSha pack idx _ hname
    exact absurd hname (Bucket.aside_ne hw)

theorem Stocked.heads_write (h : Stocked inflate content packs b) {w : Str × Bytes} (hw : Bucket.Orderly packs w)
    (hname : ∃ suffix, w.1 = packObjectName c.packSha suffix) :
    (b.writeRapidObject w.1 w.2).HeadsComplete inflate content := by
  obtain ⟨suffix, hname⟩ := hname
  refine h.heads.write (h.known.spares hw) ?_ ?_ ?_
  · rw [hname]
    exact GcsGitStorage.ne_of_head (b := 'H') (GcsGitStorage.packObjectName_head _ _) rfl (by decide)
  · rw [hname]
    exact GcsGitStorage.ne_of_head (GcsGitStorage.packObjectName_head _ _) GcsGitStorage.packedRefs_head (by decide)
  · intro href
    rw [hname] at href
    have hnot : "refs/".toList.isPrefixOf (packObjectName c.packSha suffix) = false := rfl
    exact absurd (hnot.symm.trans href) Bool.false_ne_true

theorem Stocked.pack (h : Stocked inflate content packs b) (hpacked : PackedFrom zlib inflate content packs objects c) :
    Stocked inflate content packs (b.writeRapidObject c.packName c.packData) := by
  have hw : Bucket.Orderly packs (c.packName, c.packData) := .pack hpacked.named
  refine ⟨h.sound.write (h.known.spares hw) ?_, h.known.write hw ?_, h.heads_write hw ⟨_, rfl⟩⟩
  · intro hname
    have hend := (Bucket.mem_idxNames.mp hname).2.2
    exact absurd (Bucket.packOfIndex_pack c.packSha) (Bucket.packOfIndex_ne hend)
  · intro packSha pack idx _ hname
    exact absurd hname (packObjectName_pack_ne_idx _ _)

/-- The index makes its pack one that is read. -/
theorem Stocked.idx (h : Stocked inflate content packs b) (hpacked : PackedFrom zlib inflate content packs objects c)
    (hpack : b.lookup c.packName = some c.packData) :
    Stocked inflate content packs (b.writeRapidObject c.idxName c.idxData) ∧
      c.idxName ∈ (b.writeRapidObject c.idxName c.idxData).idxNames := by
  have hw : Bucket.Orderly packs (c.idxName, c.idxData) := .idx hpacked.named
  have hlookup : (b.writeRapidObject c.idxName c.idxData).lookup c.idxName = some c.idxData := by
    rw [Bucket.lookup_write b (c.idxName, c.idxData), if_pos rfl]
  have hne : c.idxName ≠ c.packName := (packObjectName_pack_ne_idx _ _).symm
  have hkeeps : (b.writeRapidObject c.idxName c.idxData).lookup c.packName = some c.packData := by
    rw [Bucket.lookup_write b (c.idxName, c.idxData), if_neg hne, hpack]
  refine ⟨⟨h.sound.write (h.known.spares hw) ?_, h.known.write hw ?_, h.heads_write hw ⟨_, rfl⟩⟩, ?_⟩
  · intro _ _
    obtain ⟨records, hshelved, -⟩ := hpacked.shelved hkeeps hlookup
    exact ⟨records, hshelved⟩
  · intro packSha pack idx hsha hname
    obtain rfl := packObjectName_inj hname
    rw [hpacked.named, Option.some.injEq, Prod.mk.injEq] at hsha
    rw [← hsha.1]
    exact hpack
  · exact Bucket.mem_idxNames.mpr ⟨by rw [hlookup]; rfl, rfl, Bucket.idx_end c.packSha⟩

theorem aside_head : Bucket.Aside "HEAD".toList := by
  unfold Bucket.Aside
  decide

theorem Stocked.head (h : Stocked inflate content packs b) (target : Str) :
    Stocked inflate content packs
      (b.writeRapidObject "HEAD".toList (asBytes ("ref: refs/heads/".toList ++ target ++ ['\n']))) :=
  h.aside (w := ("HEAD".toList, _)) aside_head (h.heads.write_head target (h.known.spares (.aside aside_head)))

theorem aside_branchRef (branch : Str) : Bucket.Aside (Bucket.branchRef branch) := by
  unfold Bucket.Aside
  rw [branchRef_eq]
  rfl

theorem Stocked.ref (h : Stocked inflate content packs b) (branch : Str) {commitOid : Str} (hoid : IsOid commitOid)
    (hcomplete : b.Complete inflate content commitOid) :
    Stocked inflate content packs
      (b.writeRapidObject (Bucket.branchRef branch) (asBytes (commitOid ++ ['\n']))) := by
  have haside := aside_branchRef branch
  refine h.aside (w := (Bucket.branchRef branch, _)) haside ?_
  refine h.heads.write (w := (Bucket.branchRef branch, _)) (h.known.spares (.aside haside)) ?_ ?_ ?_
  · exact GcsGitStorage.ne_of_head (b := 'H') (GcsGitStorage.branchRef_head _) rfl (by decide)
  · exact GcsGitStorage.ne_of_head (GcsGitStorage.branchRef_head _) GcsGitStorage.packedRefs_head (by decide)
  · exact fun _ => ⟨commitOid, hoid, rfl, hcomplete⟩

/-- An object of the server info. -/
theorem Stocked.info (h : Stocked inflate content packs b) {w : Str × Bytes}
    (hw : w.1 = "info/refs".toList ∨ w.1 = "objects/info/packs".toList) :
    Stocked inflate content packs (b.writeRapidObject w.1 w.2) ∧ Bucket.Orderly packs w := by
  have hnames : Bucket.Aside w.1 ∧ w.1 ≠ "HEAD".toList ∧ w.1 ≠ "packed-refs".toList ∧
      "refs/".toList.isPrefixOf w.1 = false := by
    unfold Bucket.Aside
    rcases hw with hw | hw
    · rw [hw]
      decide
    · rw [hw]
      decide
  obtain ⟨haside, hhead, hpacked, href⟩ := hnames
  refine ⟨h.aside haside (h.heads.write (h.known.spares (.aside haside)) hhead hpacked ?_), .aside haside⟩
  exact fun hfront => absurd (href.symm.trans hfront) Bool.false_ne_true

/-! ## Sessions -/

/-- How far the objects of a commit are written, by what is left of them. -/
inductive Partly (repo : Repository) (b : Bucket) (c : PackedCommit) : List (Str × Bytes) → Prop where
  | nothing : Partly repo b c (c.writes repo)
  | pack : b.lookup c.packName = some c.packData → Partly repo b c ((c.writes repo).drop 1)
  | shelved {left : List (Str × Bytes)} : c.idxName ∈ b.idxNames → left <:+ (c.writes repo).drop 2 →
      Partly repo b c left

section

variable (zlib : Bytes → Bytes) (inflate : Bytes → Option (Bytes × Nat)) (content : Str → Option GitRawObject)
  (packs : Str → Option (Bytes × Bytes)) (repo : Repository) (b : Bucket)

/-- A session stands on a complete commit, and what it is about to write completes its own. -/
structure Session.Stands (s : Session) : Prop where
  base : b.Complete inflate content s.base
  objects : ∀ c left, s.phase = .objects c left →
    Built zlib inflate content packs s.base c ∧ IsOid c.commitOid ∧ Partly repo b c left
  serverInfo : ∀ c left, s.phase = .serverInfo c left → b.Complete inflate content c.commitOid ∧
    ∀ w ∈ left, w.1 = "info/refs".toList ∨ w.1 = "objects/info/packs".toList

/-- What holds of the bucket and of all the sessions at any time. -/
structure Remote.Startable (r : Remote) : Prop where
  kept : Stocked inflate content packs r.objects
  sessions : ∀ i s, r.sessions i = some s → s.Stands zlib inflate content packs repo r.objects

/-- A commit that is published has a pack with all that its base lacks. -/
def Remote.Publishes (r : Remote) (a : Remote.Action) : Prop :=
  ∀ i c s, a = .publish i c → r.sessions i = some s → Built zlib inflate content packs s.base c

end

variable {repo : Repository}

theorem Partly.write {left : List (Str × Bytes)} (h : Partly repo b c left) {w : Str × Bytes}
    (hw : Bucket.Orderly packs w) (hnamed : packs c.packSha = some (c.packData, c.idxData)) :
    Partly repo (b.writeRapidObject w.1 w.2) c left := by
  cases h with
  | nothing => exact .nothing
  | pack hpack =>
    refine .pack ?_
    rw [Bucket.lookup_write]
    split
    · rename_i hname
      rw [hw.pack_eq hnamed hname]
    · exact hpack
  | shelved hidx hleft => exact .shelved (Bucket.mem_idxNames_write hidx) hleft

theorem Session.Stands.idle {s : Session} (hbase : b.Complete inflate content s.base) (hidle : s.phase = .idle) :
    s.Stands zlib inflate content packs repo b := by
  refine ⟨hbase, ?_, ?_⟩
  · intro c left hphase
    cases hidle.symm.trans hphase
  · intro c left hphase
    cases hidle.symm.trans hphase

theorem Session.Stands.publishing {s : Session} {left : List (Str × Bytes)} (hbase : b.Complete inflate content s.base)
    (hphase : s.phase = .objects c left) (hbuilt : Built zlib inflate content packs s.base c)
    (hoid : IsOid c.commitOid) (hpartly : Partly repo b c left) : s.Stands zlib inflate content packs repo b := by
  refine ⟨hbase, ?_, ?_⟩
  · intro c' left' hphase'
    obtain ⟨rfl, rfl⟩ := Phase.objects.inj (hphase.symm.trans hphase')
    exact ⟨hbuilt, hoid, hpartly⟩
  · intro c' left' hphase'
    cases hphase.symm.trans hphase'

theorem Session.Stands.informing {s : Session} {left : List (Str × Bytes)} (hbase : b.Complete inflate content s.base)
    (hphase : s.phase = .serverInfo c left) (hcomplete : b.Complete inflate content c.commitOid)
    (hnames : ∀ w ∈ left, w.1 = "info/refs".toList ∨ w.1 = "objects/info/packs".toList) :
    s.Stands zlib inflate content packs repo b := by
  refine ⟨hbase, ?_, ?_⟩
  · intro c' left' hphase'
    cases hphase.symm.trans hphase'
  · intro c' left' hphase'
    obtain ⟨rfl, rfl⟩ := Phase.serverInfo.inj (hphase.symm.trans hphase')
    exact ⟨hcomplete, hnames⟩

theorem Session.Stands.write {s : Session} (h : s.Stands zlib inflate content packs repo b)
    (hb : Stocked inflate content packs b) {w : Str × Bytes} (hw : Bucket.Orderly packs w) :
    s.Stands zlib inflate content packs repo (b.writeRapidObject w.1 w.2) := by
  have hspares := hb.known.spares hw
  refine ⟨h.base.write hspares, ?_, ?_⟩
  · intro c left hphase
    obtain ⟨hbuilt, hoid, hpartly⟩ := h.objects c left hphase
    obtain ⟨objects, hpacked, -⟩ := hbuilt.packed
    exact ⟨hbuilt, hoid, hpartly.write hw hpacked.named⟩
  · intro c left hphase
    obtain ⟨hcomplete, hnames⟩ := h.serverInfo c left hphase
    exact ⟨hcomplete.write hspares, hnames⟩

/-- The next object of a commit. -/
theorem Partly.next {base : Str} {w : Str × Bytes} {left : List (Str × Bytes)} (h : Partly repo b c (w :: left))
    (hb : Stocked inflate content packs b) (hbase : b.Complete inflate content base)
    (hbuilt : Built zlib inflate content packs base c) (hoid : IsOid c.commitOid) :
    Bucket.Orderly packs w ∧ Stocked inflate content packs (b.writeRapidObject w.1 w.2) ∧
      Partly repo (b.writeRapidObject w.1 w.2) c left := by
  obtain ⟨objects, hpacked, -⟩ := hbuilt.packed
  generalize hall : w :: left = all at h
  cases h with
  | nothing =>
    obtain ⟨rfl, rfl⟩ := List.cons.inj hall
    refine ⟨.pack hpacked.named, hb.pack hpacked, .pack ?_⟩
    exact (Bucket.lookup_write b (c.packName, c.packData) c.packName).trans (if_pos rfl)
  | pack hpack =>
    obtain ⟨rfl, rfl⟩ := List.cons.inj hall
    obtain ⟨hkept, hidx⟩ := hb.idx hpacked hpack
    exact ⟨.idx hpacked.named, hkept, .shelved hidx (List.suffix_refl _)⟩
  | shelved hidx hsuffix =>
    subst hall
    have hshelved : Partly repo (b.writeRapidObject w.1 w.2) c left :=
      .shelved (Bucket.mem_idxNames_write hidx) ((List.suffix_cons w left).trans hsuffix)
    have hmem : w ∈ (c.writes repo).drop 2 := hsuffix.subset List.mem_cons_self
    have hcases : w = ("HEAD".toList,
          asBytes ("ref: refs/heads/".toList ++ GcsGitStorage.targetBranch repo.branch ++ ['\n'])) ∨
        w = (Bucket.branchRef (GcsGitStorage.targetBranch repo.branch), asBytes (c.commitOid ++ ['\n'])) := by
      rcases List.mem_cons.mp hmem with hw | hw
      · exact .inl hw
      · exact .inr (List.mem_singleton.mp hw)
    rcases hcases with rfl | rfl
    · exact ⟨.aside aside_head, hb.head _, hshelved⟩
    · exact ⟨.aside (aside_branchRef _), hb.ref _ hoid (hbuilt.complete hbase hb.known hidx), hshelved⟩

/-- Once nothing is left of its objects a commit is complete. -/
theorem Partly.done {base : Str} (h : Partly repo b c []) (hb : Stocked inflate content packs b)
    (hbase : b.Complete inflate content base) (hbuilt : Built zlib inflate content packs base c) :
    b.Complete inflate content c.commitOid := by
  generalize hall : ([] : List (Str × Bytes)) = all at h
  cases h with
  | nothing => cases hall
  | pack => cases hall
  | shelved hidx => exact hbuilt.complete hbase hb.known hidx

namespace Remote

theorem Startable.set {r : Remote} (h : r.Startable zlib inflate content packs repo) {s : Session}
    (hs : s.Stands zlib inflate content packs repo r.objects) (i : Nat) :
    (r.setSession i s).Startable zlib inflate content packs repo := by
  refine ⟨h.kept, ?_⟩
  intro j t ht
  by_cases hj : j = i
  · subst hj
    simp only [setSession, Function.update_self, Option.some.injEq] at ht
    exact ht ▸ hs
  · simp only [setSession, Function.update_of_ne hj] at ht
    exact h.sessions j t ht

theorem Startable.write {r : Remote} (h : r.Startable zlib inflate content packs repo) {w : Str × Bytes}
    (hw : Bucket.Orderly packs w) (hkept : Stocked inflate content packs (r.objects.writeRapidObject w.1 w.2)) :
    (r.writeObject w).Startable zlib inflate content packs repo :=
  ⟨hkept, fun i s hs => (h.sessions i s hs).write h.kept hw⟩

/-- What a session does keeps the bucket and leaves it standing on a complete commit. -/
theorem stepSession_startable {r r' : Remote} {s s' : Session} {a : Action}
    (h : r.Startable zlib inflate content packs repo) (hs : s.Stands zlib inflate content packs repo r.objects)
    (hbuilt : ∀ i c, a = .publish i c → Built zlib inflate content packs s.base c)
    (hstep : stepSession repo r s a = some (r', s')) :
    r'.Startable zlib inflate content packs repo ∧ s'.Stands zlib inflate content packs repo r'.objects := by
  cases a with
  | start i => simp [stepSession] at hstep
  | publish i c =>
    simp only [stepSession] at hstep
    split_ifs at hstep with hc
    simp only [Option.some.injEq, Prod.mk.injEq] at hstep
    obtain ⟨rfl, rfl⟩ := hstep
    exact ⟨h, .publishing hs.base rfl (hbuilt i c rfl) hc.2.1 .nothing⟩
  | write i =>
    simp only [stepSession] at hstep
    split at hstep
    · rename_i c w left hphase
      simp only [Option.some.injEq, Prod.mk.injEq] at hstep
      obtain ⟨rfl, rfl⟩ := hstep
      obtain ⟨hown, hoid, hpartly⟩ := hs.objects c _ hphase
      obtain ⟨hw, hkept, hrest⟩ := hpartly.next h.kept hs.base hown hoid
      exact ⟨h.write hw hkept, .publishing (hs.base.write (h.kept.known.spares hw)) rfl hown hoid hrest⟩
    · rename_i c w left hphase
      simp only [Option.some.injEq, Prod.mk.injEq] at hstep
      obtain ⟨rfl, rfl⟩ := hstep
      obtain ⟨hcomplete, hnames⟩ := hs.serverInfo c _ hphase
      obtain ⟨hkept, hw⟩ := h.kept.info (hnames w List.mem_cons_self)
      have hspares := h.kept.known.spares hw
      exact ⟨h.write hw hkept, .informing (hs.base.write hspares) rfl (hcomplete.write hspares)
        fun x hx => hnames x (List.mem_cons_of_mem _ hx)⟩
    · simp at hstep
  | serverInfo i =>
    simp only [stepSession] at hstep
    split at hstep
    · rename_i c hphase
      simp only [Option.some.injEq, Prod.mk.injEq] at hstep
      obtain ⟨rfl, rfl⟩ := hstep
      obtain ⟨hown, -, hpartly⟩ := hs.objects c _ hphase
      refine ⟨h, .informing hs.base rfl (hpartly.done h.kept hs.base hown) ?_⟩
      intro w hw
      simp only [GcsGitStorage.serverInfoWrites, List.mem_cons, List.not_mem_nil, or_false] at hw
      rcases hw with rfl | rfl
      · exact .inl rfl
      · exact .inr rfl
    · simp at hstep
  | finish i =>
    simp only [stepSession] at hstep
    split at hstep
    · rename_i c hphase
      simp only [Option.some.injEq, Prod.mk.injEq] at hstep
      obtain ⟨rfl, rfl⟩ := hstep
      exact ⟨h, .idle (hs.serverInfo c _ hphase).1 rfl⟩
    · simp at hstep
  | fail i =>
    simp only [stepSession, Option.some.injEq, Prod.mk.injEq] at hstep
    obtain ⟨rfl, rfl⟩ := hstep
    exact ⟨h, .idle hs.base rfl⟩

theorem step_startable (r : Remote) (a : Action) (r' : Remote) (h : r.Startable zlib inflate content packs repo)
    (hok : r.Publishes zlib inflate content packs a) (hstep : step repo r a = some r') :
    r'.Startable zlib inflate content packs repo := by
  unfold step at hstep
  split at hstep
  · rename_i s hs
    obtain ⟨⟨r₁, s'⟩, hsession, rfl⟩ := Option.map_eq_some_iff.mp hstep
    have hbuilt : ∀ i c, a = .publish i c → Built zlib inflate content packs s.base c := by
      rintro i c rfl
      exact hok i c s rfl hs
    obtain ⟨hr₁, hs'⟩ := stepSession_startable h (h.sessions _ s hs) hbuilt hsession
    exact hr₁.set hs' _
  · split at hstep
    · split at hstep
      · rename_i sha name hhead
        rw [Option.some.injEq] at hstep
        exact hstep ▸ h.set (.idle (h.kept.heads.resolveHead hhead) rfl) _
      · cases hstep
    · cases hstep

end Remote

/-! ## A commit on top of the first one -/

def stockedFile : Bytes := asBytes "one line\n".toList

def stockedBlob : Str := "e3c0674801dab4e79d2b763c3909bb53b082ef48".toList

def stockedTree : Bytes := rawEntry .regularFile ['f'] ((hexDecode stockedBlob).getD [])

def stockedRoot : Str := "1539bb44cb1e630a10b219232aa0df880c906510".toList

def firstRaw : Bytes := asBytes ("tree ".toList ++ stockedRoot ++ ['\n'])

def firstOid : Str := "0635af40b7ff23ffd26ae3fc0f2ba8328bda3f83".toList

def secondRaw : Bytes :=
  asBytes ("tree ".toList ++ stockedRoot ++ "\nparent ".toList ++ firstOid ++ ['\n'])

def secondOid : Str := "b7757ab3f80262f7e76aa5ddde6b54e6a7c53822".toList

def firstObjects : List GitObjectToPack :=
  [⟨stockedBlob, .blob, stockedFile⟩, ⟨stockedRoot, .tree, stockedTree⟩, ⟨firstOid, .commit, firstRaw⟩]

def secondObjects : List GitObjectToPack := [⟨secondOid, .commit, secondRaw⟩]

def stockedContent (oid : Str) : Option GitRawObject :=
  ((firstObjects ++ secondObjects).find? fun obj => obj.oid = oid).map GitObjectToPack.raw

/-- The commit and the pack that is made of these objects. -/
def packedCommit (commitOid : Str) (objects : List GitObjectToPack) : PackedCommit :=
  match createPackAndIndexBytes zlibStored objects with
  | .ok (pack, idx, sha) => ⟨commitOid, sha, pack, idx⟩
  | .error _ => ⟨commitOid, [], [], []⟩

def firstPacked : PackedCommit := packedCommit firstOid firstObjects

def secondPacked : PackedCommit := packedCommit secondOid secondObjects

def stockedPacks (packSha : Str) : Option (Bytes × Bytes) :=
  ([firstPacked, secondPacked].find? fun c => c.packSha = packSha).map fun c => (c.packData, c.idxData)

def stockedRepo : Repository where
  branch := some "main".toList
  parent := fun c => if c = secondOid then some firstOid else none

def stockedBucket : Bucket :=
  Bucket.writeAll ∅ (firstPacked.writes stockedRepo)

/-- What there is to compute about the two commits and their packs. -/
theorem stocked_facts :
    ((createPackAndIndexBytes zlibStored firstObjects).toOption.isSome = true ∧
      (createPackAndIndexBytes zlibStored secondObjects).toOption.isSome = true ∧
      firstPacked.packSha ≠ secondPacked.packSha) ∧
    (∀ obj ∈ firstObjects ++ secondObjects, obj.oid = computeGitSha1 obj.objType obj.data ∧
      obj.data.length < 2 ^ 16 ∧ (packRecord zlibStored obj).length ≤ 64 * 1024 + 64 ∧
      stockedContent obj.oid = some obj.raw) ∧
    GitTree.parse stockedTree = .ok ⟨[⟨.regularFile, ['f'], stockedBlob⟩]⟩ ∧
    treeLine (fromUtf8Lossy firstRaw) = some stockedRoot ∧ treeLine (fromUtf8Lossy secondRaw) = some stockedRoot := by
  decide +kernel

theorem stocked_object (obj : GitObjectToPack) (h : obj ∈ firstObjects ++ secondObjects) :
    obj.oid = computeGitSha1 obj.objType obj.data ∧ obj.data.length < 2 ^ 16 ∧
      (packRecord zlibStored obj).length ≤ 64 * 1024 + 64 ∧ stockedContent obj.oid = some obj.raw :=
  stocked_facts.2.1 obj h

theorem packedCommit_made {commitOid : Str} {objects : List GitObjectToPack}
    (h : (createPackAndIndexBytes zlibStored objects).toOption.isSome = true) :
    createPackAndIndexBytes zlibStored objects = .ok ((packedCommit commitOid objects).packData,
      (packedCommit commitOid objects).idxData, (packedCommit commitOid objects).packSha) := by
  unfold packedCommit
  cases hmade : createPackAndIndexBytes zlibStored objects with
  | error e =>
    rw [hmade] at h
    cases h
  | ok made => rfl

theorem packedCommit_commitOid (commitOid : Str) (objects : List GitObjectToPack) :
    (packedCommit commitOid objects).commitOid = commitOid := by
  unfold packedCommit
  split <;> rfl

/-- Objects of the two commits in a pack. -/
theorem stocked_packed {objects : List GitObjectToPack} {commitOid : Str}
    (hobjects : ∀ obj ∈ objects, obj ∈ firstObjects ++ secondObjects)
    (hplain : ∀ obj ∈ objects, obj.objType.Plain) (hnodup : (objects.map GitObjectToPack.oid).Nodup)
    (hmade : (createPackAndIndexBytes zlibStored objects).toOption.isSome = true)
    (hnamed : stockedPacks (packedCommit commitOid objects).packSha =
      some ((packedCommit commitOid objects).packData, (packedCommit commitOid objects).idxData)) :
    PackedFrom zlibStored inflateStored stockedContent stockedPacks objects (packedCommit commitOid objects) where
  made := packedCommit_made hmade
  packable := ⟨hplain, fun obj hobj => (stocked_object obj (hobjects obj hobj)).1, hnodup⟩
  inverts := fun obj hobj _ => inflateStored_zlibStored _ _ (stocked_object obj (hobjects obj hobj)).2.1
  lastShort := fun obj hobj => (stocked_object obj (hobjects obj (List.mem_of_getLast? hobj))).2.2.1
  content := fun obj hobj => (stocked_object obj (hobjects obj hobj)).2.2.2
  named := hnamed

theorem firstObjects_packed :
    PackedFrom zlibStored inflateStored stockedContent stockedPacks firstObjects firstPacked :=
  stocked_packed (fun _ hobj => List.mem_append_left _ hobj) (by simp [firstObjects, ObjectType.Plain]) (by decide)
    stocked_facts.1.1 (by simp [stockedPacks, firstPacked])

theorem secondObjects_packed :
    PackedFrom zlibStored inflateStored stockedContent stockedPacks secondObjects secondPacked :=
  stocked_packed (fun _ hobj => List.mem_append_right _ hobj) (by simp [secondObjects, ObjectType.Plain]) (by decide)
    stocked_facts.1.2.1 (by
      have hne := stocked_facts.1.2.2
      unfold secondPacked at hne
      simp [stockedPacks, secondPacked, hne])

theorem stocked_tree : dataOf stockedContent stockedRoot = some stockedTree := by
  have hroot : stockedContent stockedRoot = some ⟨.tree, stockedTree⟩ :=
    (stocked_object ⟨stockedRoot, .tree, stockedTree⟩ (by simp [firstObjects])).2.2.2
  rw [dataOf, hroot]
  rfl

theorem stocked_read : TreeLoader.readTree (dataOf stockedContent) stockedRoot =
    some ⟨[⟨.regularFile, ['f'], stockedBlob⟩]⟩ := by
  unfold TreeLoader.readTree
  rw [stocked_tree, Option.bind_some, stocked_facts.2.2.1]
  rfl

theorem first_content : stockedContent firstOid = some ⟨.commit, firstRaw⟩ :=
  (stocked_object ⟨firstOid, .commit, firstRaw⟩ (by simp [firstObjects])).2.2.2

theorem second_content : stockedContent secondOid = some ⟨.commit, secondRaw⟩ :=
  (stocked_object ⟨secondOid, .commit, secondRaw⟩ (by simp [secondObjects])).2.2.2

theorem stocked_hierarchy {oid : Str} (h : InHierarchy (dataOf stockedContent) stockedRoot oid) :
    oid = stockedRoot := by
  induction h with
  | root => rfl
  | entry _ htree he hdir ih =>
    subst ih
    obtain rfl := Option.some.inj (stocked_read.symm.trans htree)
    rw [List.mem_singleton.mp he] at hdir
    cases hdir

/-- A commit with the stocked tree is whole, and needs nothing else. -/
theorem stocked_needs {commitOid : Str} {obj : GitRawObject} (hobj : stockedContent commitOid = some obj)
    (hline : treeLine (fromUtf8Lossy obj.data) = some stockedRoot) :
    Whole stockedContent commitOid stockedRoot ∧ ∀ oid, Needs stockedContent commitOid oid →
      oid = commitOid ∨ oid = stockedRoot ∨ oid = stockedBlob := by
  have hroot : ∀ rootOid, Whole stockedContent commitOid rootOid → rootOid = stockedRoot := by
    intro rootOid hwhole
    obtain ⟨obj', hobj', hline'⟩ := hwhole.commit
    obtain rfl := Option.some.inj (hobj.symm.trans hobj')
    exact Option.some.inj (hline'.symm.trans hline)
  refine ⟨⟨⟨obj, hobj, hline⟩, ?_⟩, ?_⟩
  · intro oid hoid
    rw [stocked_hierarchy hoid]
    exact ⟨stockedTree, _, stocked_tree, stocked_facts.2.2.1⟩
  · intro oid hneeds
    cases hneeds with
    | commit => exact .inl rfl
    | tree hwhole hoid =>
      obtain rfl := hroot _ hwhole
      exact .inr (.inl (stocked_hierarchy hoid))
    | file hwhole hoid htree he hdir hsub =>
      obtain rfl := hroot _ hwhole
      rw [stocked_hierarchy hoid] at htree
      obtain rfl := Option.some.inj (stocked_read.symm.trans htree)
      rw [List.mem_singleton.mp he]
      exact .inr (.inr rfl)

/-- The second commit comes with no tree. -/
theorem second_built : Built zlibStored inflateStored stockedContent stockedPacks firstOid secondPacked := by
  have hfirst := (stocked_needs first_content stocked_facts.2.2.2.1).1
  obtain ⟨hwhole, hneeds⟩ := stocked_needs second_content stocked_facts.2.2.2.2
  have hcommit : secondPacked.commitOid = secondOid := packedCommit_commitOid _ _
  refine ⟨⟨stockedRoot, hcommit ▸ hwhole⟩, secondObjects, secondObjects_packed, ?_⟩
  intro oid hoid
  rw [hcommit] at hoid
  rcases hneeds oid hoid with rfl | rfl | rfl
  · exact .inl List.mem_cons_self
  · exact .inr (.tree hfirst .root)
  · exact .inr (.file hfirst .root stocked_read List.mem_cons_self rfl (by simp))

theorem stocked_empty (inflate : Bytes → Option (Bytes × Nat)) (content : Str → Option GitRawObject)
    (packs : Str → Option (Bytes × Bytes)) : Stocked inflate content packs ∅ := by
  have hnone : ∀ name : Str, name ∉ Bucket.idxNames ∅ := by
    intro name hname
    have hthere := (Bucket.mem_idxNames.mp hname).1
    rw [AList.lookup_empty] at hthere
    cases hthere
  exact ⟨fun name hname => absurd hname (hnone name), fun _ _ _ _ hname => absurd hname (hnone _), nofun, nofun, nofun⟩

theorem first_complete {b : Bucket} (hb : Stocked inflateStored stockedContent stockedPacks b)
    (hname : firstPacked.idxName ∈ b.idxNames) : b.Complete inflateStored stockedContent firstOid := by
  obtain ⟨hwhole, hneeds⟩ := stocked_needs first_content stocked_facts.2.2.2.1
  refine ⟨⟨stockedRoot, hwhole⟩, ?_⟩
  intro oid hoid
  refine firstObjects_packed.holds hb.known hname ?_
  rcases hneeds oid hoid with rfl | rfl | rfl <;> simp [firstObjects]

theorem first_isOid : IsOid firstOid := by decide

theorem stockedBucket_eq : stockedBucket =
    ((((∅ : Bucket).writeRapidObject firstPacked.packName firstPacked.packData).writeRapidObject firstPacked.idxName
      firstPacked.idxData).writeRapidObject "HEAD".toList
      (asBytes ("ref: refs/heads/".toList ++ GcsGitStorage.targetBranch stockedRepo.branch ++ ['\n']))).writeRapidObject
      (Bucket.branchRef (GcsGitStorage.targetBranch stockedRepo.branch)) (asBytes (firstOid ++ ['\n'])) := by
  have hcommit : firstPacked.commitOid = firstOid := packedCommit_commitOid _ _
  simp only [stockedBucket, PackedCommit.writes, GcsGitStorage.commitWrites, Bucket.writeAll, List.foldl_cons,
    List.foldl_nil, hcommit, PackedCommit.packName, PackedCommit.idxName]

/-- The bucket in which the first commit was published. -/
theorem stockedBucket_stocked : Stocked inflateStored stockedContent stockedPacks stockedBucket := by
  have hpack := (stocked_empty inflateStored stockedContent stockedPacks).pack firstObjects_packed
  obtain ⟨hidx, hname⟩ := hpack.idx firstObjects_packed (AList.lookup_insert _)
  have hhead := hidx.head (GcsGitStorage.targetBranch stockedRepo.branch)
  have hcomplete := first_complete hhead (Bucket.mem_idxNames_write (w := ("HEAD".toList, _)) hname)
  rw [stockedBucket_eq]
  exact hhead.ref (GcsGitStorage.targetBranch stockedRepo.branch) first_isOid hcomplete

theorem stockedBucket_heads : Heads stockedBucket stockedRepo.branch firstOid := by
  rw [stockedBucket_eq]
  exact heads_of_ref _ _ _ first_isOid

namespace Remote

/-- A session that starts on the first commit and writes the second one. -/
def secondRun : List Action :=
  [.start 0, .publish 0 secondPacked] ++ List.replicate 4 (.write 0)

theorem meets_writes (r : Remote) (n : Nat) :
    Run.Meets (step stockedRepo) (Publishes zlibStored inflateStored stockedContent stockedPacks) r
      (List.replicate n (.write 0)) := by
  induction n generalizing r with
  | zero => trivial
  | succ n ih => exact ⟨nofun, fun r' _ => ih r'⟩

theorem secondRun_meets :
    Run.Meets (step stockedRepo) (Publishes zlibStored inflateStored stockedContent stockedPacks)
      (initial stockedBucket) secondRun := by
  obtain ⟨name, hhead⟩ := stockedBucket_heads.resolveHead
  refine ⟨nofun, fun r hr => ⟨?_, fun r' _ => meets_writes r' 4⟩⟩
  intro i c s ha hs
  obtain ⟨rfl, rfl⟩ := Action.publish.inj ha
  have hstart : step stockedRepo (initial stockedBucket) (.start 0) =
      some ((initial stockedBucket).setSession 0 ⟨firstOid, [], .idle⟩) := by
    simp only [step, initial, hhead]
  obtain rfl := Option.some.inj (hstart.symm.trans hr)
  simp only [setSession, Function.update_self, Option.some.injEq] at hs
  exact hs ▸ second_built

def noBlocks : BlockCache := ⟨10 * 1024 * 1024, fun _ => none, fun _ _ => none⟩

theorem noBlocks_truly (b : Bucket) : b.CachedTruly noBlocks := by
  intro name pack hpack
  refine ⟨by show 0 < 10 * 1024 * 1024; decide, nofun, nofun, ?_⟩
  intro offset len
  rw [Bucket.readSegment, hpack]
  rfl

end Remote

end GitNfs
