import GitNfs.Git.Refs
import GitNfs.Publish
import GitNfs.Wal.Parent

/-! # Markers and crashes

A crash leaves the first writes of a recovery, and of the write it came into some of the bytes but never
all. An object of the repository is there whole or not at all.
-/

namespace GitNfs


theorem crash_nil (d : Durable) (p : CrashPoint) : d.crash [] p = d := by
  unfold Durable.crash
  simp only [List.take_nil, List.getElem?_nil]
  cases p.torn <;> rfl

theorem crash_none (d : Durable) (ws : List DurableWrite) : d.crash ws ⟨0, none⟩ = d := rfl

theorem crash_torn (d : Durable) (w w' : DurableWrite) (ws : List DurableWrite) (n : Nat)
    (h : w.torn n = some w') : d.crash (w :: ws) ⟨0, some n⟩ = d.write w' := by
  simp only [Durable.crash, List.getElem?_cons_zero, h]
  rfl

theorem crash_succ (d : Durable) (w : DurableWrite) (ws : List DurableWrite) (k : Nat) (torn : Option Nat) :
    d.crash (w :: ws) ⟨k + 1, torn⟩ = (d.write w).crash ws ⟨k, torn⟩ := rfl

theorem crash_append (d : Durable) (ws vs : List DurableWrite) (k : Nat) (torn : Option Nat) :
    d.crash (ws ++ vs) ⟨ws.length + k, torn⟩ = (d.writes ws).crash vs ⟨k, torn⟩ := by
  induction ws generalizing d with
  | nil => simp only [List.nil_append, List.length_nil, Nat.zero_add]; rfl
  | cons w ws ih =>
    rw [List.cons_append, List.length_cons, Nat.add_right_comm, crash_succ, ih]
    rfl

theorem crash_all (d : Durable) (ws : List DurableWrite) : d.crash ws ⟨ws.length, none⟩ = d.writes ws := by
  simp only [Durable.crash, List.take_length]

/-- The durable state that a recovery finds after its lockout, what it builds, and its writes. -/
structure RecoveryPlan where
  found : Durable
  built : Option RecoveredPackResult
  writes : List DurableWrite

def recoveryPlan (zlib : Bytes → Bytes) (g : GitEngine) (d : Durable) (cfg : RecoverConfig)
    (faults : RecoverFaults) : RecoveryPlan :=
  if faults.list then ⟨d, none, []⟩
  else
    let d := { d with wal := d.wal.lockoutZombies faults.lockout d.wal.listLogSequences }
    match uncommittedSeqs d.wal faults with
    | [] => ⟨d, none, []⟩
    | seqs =>
      match buildRecovery zlib g d.wal cfg faults seqs with
      | some (.ok res) => ⟨d, res, recoveryWrites g d cfg.branch seqs res⟩
      | _ => ⟨d, none, []⟩

/-- What is left when the process dies inside `recover_and_replay_uncommitted`. -/
def recoverCrash (zlib : Bytes → Bytes) (g : GitEngine) (d : Durable) (cfg : RecoverConfig)
    (faults : RecoverFaults) (p : CrashPoint) : Durable :=
  let plan := recoveryPlan zlib g d cfg faults
  plan.found.crash plan.writes p

/-- A recovery that comes back, with a result or with an error, leaves what a crash can leave. -/
theorem recover_eq_crash {zlib : Bytes → Bytes} {g : GitEngine} {d d' : Durable} {cfg : RecoverConfig}
    {faults : RecoverFaults} {res : Except Error (Option RecoveredPackResult)}
    (h : recoverAndReplayUncommitted zlib g d cfg faults = some (res, d')) :
    ∃ p, d' = recoverCrash zlib g d cfg faults p := by
  unfold recoverAndReplayUncommitted at h
  unfold recoverCrash recoveryPlan
  split_ifs at h ⊢ with hlist
  · simp only [Option.some.injEq, Prod.mk.injEq] at h
    exact ⟨⟨0, none⟩, h.2.symm⟩
  · simp only at h ⊢
    generalize hstore : d.wal.lockoutZombies faults.lockout d.wal.listLogSequences = store at h ⊢
    generalize uncommittedSeqs store faults = seqs at h ⊢
    cases seqs with
    | nil =>
      simp only [Option.some.injEq, Prod.mk.injEq] at h
      exact ⟨⟨0, none⟩, h.2.symm⟩
    | cons seq rest =>
      simp only at h ⊢
      generalize hbuild : buildRecovery zlib g store cfg faults (seq :: rest) = build at h ⊢
      split at h
      · simp at h
      · simp only [Option.some.injEq, Prod.mk.injEq] at h
        exact ⟨⟨0, none⟩, h.2.symm⟩
      · rename_i built
        split at h
        · simp only [Option.some.injEq, Prod.mk.injEq] at h
          exact ⟨_, by rw [← h.2]; exact (crash_all _ _).symm⟩
        · rename_i p _
          split_ifs at h
          · simp only [Option.some.injEq, Prod.mk.injEq] at h
            exact ⟨p, h.2.symm⟩
          · simp only [Option.some.injEq, Prod.mk.injEq] at h
            exact ⟨_, by rw [← h.2]; exact (crash_all _ _).symm⟩

/-- What a recovery can find and plan. -/
theorem recoveryPlan_cases (zlib : Bytes → Bytes) (g : GitEngine) (d : Durable) (cfg : RecoverConfig)
    (faults : RecoverFaults) :
    ∃ store, WalStore.SameLogs d.wal store ∧
      let found : Durable := { d with wal := store }
      let seqs := uncommittedSeqs d.wal faults
      (recoveryPlan zlib g d cfg faults = ⟨found, none, []⟩ ∨
       ∃ built, buildRecovery zlib g store cfg faults seqs = some (.ok built) ∧
        recoveryPlan zlib g d cfg faults = ⟨found, built, recoveryWrites g found cfg.branch seqs built⟩) := by
  unfold recoveryPlan
  split_ifs
  · exact ⟨d.wal, .refl _, .inl rfl⟩
  · have hsame := d.wal.lockoutZombies_sameLogs faults.lockout d.wal.listLogSequences
    refine ⟨_, hsame, ?_⟩
    simp only [hsame.uncommittedSeqs]
    split
    · exact .inl rfl
    · split
      · rename_i res hbuild
        exact .inr ⟨res, hbuild, rfl⟩
      · exact .inl rfl

/-! ## What a marker promises -/

/-- The content of a marker that names a commit. -/
def markerOf (commitOid : Str) : Bytes := asBytes (commitOid ++ ['\n'])

def RecoveredPackResult.packed (res : RecoveredPackResult) : PackedCommit :=
  ⟨res.commitOid, res.packSha, res.packData, res.idxData⟩

/-- The pack and the index of a log are whole. -/
def Stored (d : Durable) (seq : Nat) (c : PackedCommit) : Prop :=
  d.wal.pack seq = some c.packData ∧ d.wal.idx seq = some c.idxData

def Published (d : Durable) (c : PackedCommit) : Prop :=
  d.repo.objects.lookup (GcsGitStorage.packObjectName c.packSha ".pack".toList) = some c.packData ∧
  d.repo.objects.lookup (GcsGitStorage.packObjectName c.packSha ".idx".toList) = some c.idxData

/-- Every marker that names a commit has the pack and the index of that commit behind it. `packs` is the
pack that each commit came in. -/
def Backed (packs : Str → Option PackedCommit) (gcs : Bool) (d : Durable) : Prop :=
  ∀ seq commitOid, IsOid commitOid → d.wal.done seq = some (markerOf commitOid) →
    ∃ c, packs commitOid = some c ∧ (Stored d seq c ∨ (gcs = true ∧ Published d c))

theorem markerOf_length {commitOid : Str} (h : IsOid commitOid) : (markerOf commitOid).length = 41 := by
  have hlen := h.line.2
  have happend : markerOf commitOid = asBytes commitOid ++ asBytes ['\n'] := asBytes_append _ _
  rw [happend, List.length_append, hlen]
  rfl

theorem markerOf_injective {a b : Str} (h : markerOf a = markerOf b) : a = b := by
  have := congrArg fromUtf8 h
  rw [markerOf, markerOf, fromUtf8_asBytes, fromUtf8_asBytes, Option.some.injEq] at this
  exact List.append_cancel_right this

theorem cut_marker_ne (n : Nat) (data : Bytes) (hdata : data.length ≤ 41) {commitOid : Str}
    (h : IsOid commitOid) : DurableWrite.cut n data ≠ markerOf commitOid := by
  intro heq
  have := congrArg List.length heq
  rw [markerOf_length h, DurableWrite.cut, List.length_take] at this
  omega

/-! ### One write at a time -/

/-- What is stored for the other logs, and what is published, does not hang on the files of one log. -/
theorem backed_of_frame {packs : Str → Option PackedCommit} {gcs : Bool} {d d' : Durable} (seq : Nat)
    (h : Backed packs gcs d) (hrepo : d'.repo = d.repo)
    (hother : ∀ i, i ≠ seq → d'.wal.done i = d.wal.done i ∧ d'.wal.pack i = d.wal.pack i ∧
      d'.wal.idx i = d.wal.idx i)
    (hseq : ∀ commitOid, IsOid commitOid → d'.wal.done seq = some (markerOf commitOid) →
      ∃ c, packs commitOid = some c ∧ (Stored d' seq c ∨ (gcs = true ∧ Published d' c))) :
    Backed packs gcs d' := by
  intro i commitOid hoid hdone
  by_cases hi : i = seq
  · subst hi
    exact hseq commitOid hoid hdone
  · obtain ⟨h₁, h₂, h₃⟩ := hother i hi
    obtain ⟨c, hc, hback⟩ := h i commitOid hoid (h₁ ▸ hdone)
    refine ⟨c, hc, ?_⟩
    rwa [Stored, Published, h₂, h₃, hrepo]

/-- The writes of `mark_log_done` for a commit. -/
def closeLog (c : PackedCommit) (seq : Nat) : List DurableWrite :=
  markLogDone seq c.commitOid (some c.packData) (some c.idxData)

theorem closeLog_eq (c : PackedCommit) (seq : Nat) :
    closeLog c seq = [.done seq (markerOf c.commitOid), .pack seq c.packData, .idx seq c.idxData] := rfl

/-- The crash does not break off the files of a log: it is not in front of its pack or its index nor inside
of these, or what they were to become is there already. -/
def CrashPoint.Spares (p : CrashPoint) (d : Durable) (ws : List DurableWrite) : Prop :=
  match ws.drop p.writes with
  | .pack seq packData :: .idx _ idxData :: _ =>
    p.torn = none ∧ d.wal.pack seq = some packData ∧ d.wal.idx seq = some idxData
  | .idx seq idxData :: _ => p.torn = none ∧ d.wal.idx seq = some idxData
  | _ => True

theorem mem_closeLogs {c : PackedCommit} {seqs : List Nat} {w : DurableWrite}
    (h : w ∈ seqs.flatMap (closeLog c)) :
    ∃ seq ∈ seqs, w = .done seq (markerOf c.commitOid) ∨ w = .pack seq c.packData ∨
      w = .idx seq c.idxData := by
  simpa only [List.mem_flatMap, closeLog_eq, List.mem_cons, List.not_mem_nil, or_false] using h

theorem CrashPoint.spares_congr {c : PackedCommit} {seqs : List Nat} {p : CrashPoint} {d : Durable} (d' : Durable)
    (h : ∀ seq ∈ seqs, d.wal.pack seq = d'.wal.pack seq ∧ d.wal.idx seq = d'.wal.idx seq) :
    p.Spares d (seqs.flatMap (closeLog c)) ↔ p.Spares d' (seqs.flatMap (closeLog c)) := by
  unfold CrashPoint.Spares
  have hmem : ∀ w ∈ (seqs.flatMap (closeLog c)).drop p.writes, ∃ seq ∈ seqs,
      w = .done seq (markerOf c.commitOid) ∨ w = .pack seq c.packData ∨ w = .idx seq c.idxData :=
    fun w hw => mem_closeLogs (List.mem_of_mem_drop hw)
  generalize (seqs.flatMap (closeLog c)).drop p.writes = ws at hmem ⊢
  split
  · obtain ⟨seq, hseq, hw⟩ := hmem _ List.mem_cons_self
    simp only [reduceCtorEq, DurableWrite.pack.injEq, false_or, or_false] at hw
    rw [hw.1, (h seq hseq).1, (h seq hseq).2]
  · obtain ⟨seq, hseq, hw⟩ := hmem _ List.mem_cons_self
    simp only [reduceCtorEq, DurableWrite.idx.injEq, false_or] at hw
    rw [hw.1, (h seq hseq).2]
  · rfl

section CloseLogs

variable {packs : Str → Option PackedCommit} {gcs : Bool} {c : PackedCommit}

/-- A marker of the commit itself is backed as soon as its log has its files or the commit is out. -/
theorem own_marker_backed (hpack : packs c.commitOid = some c) {d : Durable} {seq : Nat}
    (hdone : d.wal.done seq = some (markerOf c.commitOid))
    (h : Stored d seq c ∨ (gcs = true ∧ Published d c)) (commitOid : Str)
    (hmarker : d.wal.done seq = some (markerOf commitOid)) :
    ∃ c, packs commitOid = some c ∧ (Stored d seq c ∨ (gcs = true ∧ Published d c)) := by
  rw [hdone, Option.some.injEq] at hmarker
  have heq := markerOf_injective hmarker
  subst heq
  exact ⟨c, hpack, h⟩

theorem published_write {d : Durable} {w : DurableWrite} (hw : ∀ name data, w ≠ .repo name data) :
    Published (d.write w) c ↔ Published d c := by
  cases w with
  | repo name data => exact absurd rfl (hw name data)
  | done => rfl
  | pack => rfl
  | idx => rfl

/-- Between the marker of a log and the end of its index, only a commit that is out is safe, or one whose
files were there before. -/
theorem half_closed_backed (hpack : packs c.commitOid = some c) (hoid : IsOid c.commitOid)
    {d e : Durable} (seq : Nat) (hd : Backed packs gcs d) (hrepo : e.repo = d.repo)
    (hother : ∀ i, i ≠ seq → e.wal.done i = d.wal.done i ∧ e.wal.pack i = d.wal.pack i ∧
      e.wal.idx i = d.wal.idx i)
    (hdone : e.wal.done seq = some (markerOf c.commitOid)) :
    Backed packs gcs e ↔ (gcs = true ∧ Published d c) ∨ Stored e seq c := by
  have hpub : Published e c ↔ Published d c := by rw [Published, Published, hrepo]
  constructor
  · intro he
    obtain ⟨c', hc', hback⟩ := he seq c.commitOid hoid hdone
    rw [hpack, Option.some.injEq] at hc'
    subst hc'
    exact hback.symm.imp_left fun h => ⟨h.1, hpub.mp h.2⟩
  · intro hout
    refine backed_of_frame seq hd hrepo hother fun oid _ hmarker => own_marker_backed hpack hdone ?_ oid hmarker
    exact hout.symm.imp_right fun h => ⟨h.1, hpub.mpr h.2⟩

/-- While the logs are closed one after the other, everything that is marked is backed, except where the
crash breaks off the files of a log, if the commit is not in the repository. -/
theorem closeLogs_backed (gcs : Bool) (hpack : packs c.commitOid = some c) (hoid : IsOid c.commitOid)
    (hdata : c.packData ≠ []) (hidx : c.idxData ≠ []) (seqs : List Nat) (d : Durable) (k : Nat)
    (torn : Option Nat) (hnodup : seqs.Nodup) (hd : Backed packs gcs d) :
    Backed packs gcs (d.crash (seqs.flatMap (closeLog c)) ⟨k, torn⟩) ↔
      (gcs = true ∧ Published d c) ∨ CrashPoint.Spares ⟨k, torn⟩ d (seqs.flatMap (closeLog c)) := by
  induction seqs generalizing d k with
  | nil => simp [crash_nil, hd, CrashPoint.Spares]
  | cons seq seqs ih =>
    rw [List.nodup_cons] at hnodup
    have hother {i : Nat} (hi : i ≠ seq) (f : Nat → Option Bytes) (b : Bytes) :
        Function.update f seq (some b) i = f i := Function.update_of_ne hi _ _
    have hws : (seq :: seqs).flatMap (closeLog c) =
        .done seq (markerOf c.commitOid) :: .pack seq c.packData :: .idx seq c.idxData ::
          seqs.flatMap (closeLog c) := rfl
    rw [hws]
    have hmarked : (d.write (.done seq (markerOf c.commitOid))).wal.done seq =
        some (markerOf c.commitOid) := Function.update_self _ _ _
    match k with
    | 0 =>
      refine iff_of_true ?_ (.inr trivial)
      cases torn with
      | none => exact hd
      | some n =>
        rw [crash_torn _ _ _ _ n rfl]
        refine backed_of_frame seq hd rfl (fun i hi => ⟨hother hi _ _, rfl, rfl⟩) fun oid ho hdone => ?_
        simp only [Durable.write, Function.update_self, Option.some.injEq] at hdone
        exact absurd hdone (cut_marker_ne n _ (markerOf_length hoid).le ho)
    | 1 =>
      rw [crash_succ]
      cases torn with
      | none =>
        rw [crash_none]
        refine Iff.trans (half_closed_backed hpack hoid seq hd rfl (fun i hi => ⟨hother hi _ _, rfl, rfl⟩) hmarked) ?_
        simp [CrashPoint.Spares, Stored, Durable.write]
      | some n =>
        rw [crash_torn _ _ _ _ n rfl]
        refine Iff.trans (half_closed_backed hpack hoid seq hd rfl
          (fun i hi => ⟨hother hi _ _, hother hi _ _, rfl⟩) hmarked) ?_
        simp [CrashPoint.Spares, Stored, Durable.write, DurableWrite.cut_ne n _ hdata]
    | 2 =>
      rw [crash_succ, crash_succ]
      cases torn with
      | none =>
        rw [crash_none]
        refine Iff.trans (half_closed_backed hpack hoid seq hd rfl (fun i hi => ⟨hother hi _ _, hother hi _ _, rfl⟩) hmarked) ?_
        simp [CrashPoint.Spares, Stored, Durable.write]
      | some n =>
        rw [crash_torn _ _ _ _ n rfl]
        refine Iff.trans (half_closed_backed hpack hoid seq hd rfl
          (fun i hi => ⟨hother hi _ _, hother hi _ _, hother hi _ _⟩) hmarked) ?_
        simp [CrashPoint.Spares, Stored, Durable.write, DurableWrite.cut_ne n _ hidx]
    | k + 3 =>
      rw [crash_succ, crash_succ, crash_succ, ih _ k hnodup.2]
      · rw [published_write (by simp), published_write (by simp), published_write (by simp)]
        refine or_congr_right (CrashPoint.spares_congr _ fun i hi => ?_)
        have hne : i ≠ seq := fun h => hnodup.1 (h ▸ hi)
        simp only [Durable.write, hother hne, and_self]
      · refine backed_of_frame seq hd rfl (fun i hi => ?_) fun oid _ hdone => ?_
        · simp only [Durable.write, hother hi, and_self]
        · refine own_marker_backed hpack ?_ (.inl ⟨?_, ?_⟩) oid hdone <;>
            simp [Durable.write]

/-- A log that is closed as empty is not closed for a commit. -/
theorem emptyLogs_backed (seqs : List Nat) (d : Durable) (k : Nat) (torn : Option Nat)
    (hd : Backed packs gcs d) :
    Backed packs gcs
      (d.crash (seqs.flatMap fun seq => markLogDone seq "empty".toList none none) ⟨k, torn⟩) := by
  have hempty : (markerOf "empty".toList).length = 6 := by decide
  have hdone (d : Durable) (hd : Backed packs gcs d) (seq : Nat) (data : Bytes)
      (hdata : ∀ oid, IsOid oid → data ≠ markerOf oid) : Backed packs gcs (d.write (.done seq data)) := by
    refine backed_of_frame seq hd rfl (fun i hi => ⟨Function.update_of_ne hi _ _, rfl, rfl⟩)
      fun oid ho hmarker => ?_
    simp only [Durable.write, Function.update_self, Option.some.injEq] at hmarker
    exact absurd hmarker (hdata oid ho)
  induction seqs generalizing d k with
  | nil => rwa [List.flatMap_nil, crash_nil]
  | cons seq seqs ih =>
    have hws : ((seq :: seqs).flatMap fun seq => markLogDone seq "empty".toList none none) =
        .done seq (markerOf "empty".toList) ::
          seqs.flatMap fun seq => markLogDone seq "empty".toList none none := rfl
    rw [hws]
    match k, torn with
    | 0, none => exact hd
    | 0, some n =>
      rw [crash_torn _ _ _ _ n rfl]
      exact hdone d hd seq _ fun oid ho => cut_marker_ne n _ (by omega) ho
    | k + 1, torn =>
      rw [crash_succ]
      refine ih _ k (hdone d hd seq _ fun oid ho heq => ?_)
      have := congrArg List.length heq
      rw [hempty, markerOf_length ho] at this
      omega

theorem emptyLogs_spare (seqs : List Nat) (d : Durable) (p : CrashPoint) :
    p.Spares d (seqs.flatMap fun seq => markLogDone seq "empty".toList none none) := by
  unfold CrashPoint.Spares
  have hmem : ∀ w ∈ (seqs.flatMap fun seq => markLogDone seq "empty".toList none none).drop p.writes,
      ∃ seq data, w = .done seq data := by
    intro w hw
    have hw := List.mem_of_mem_drop hw
    simp only [markLogDone, List.mem_flatMap, Option.map_none, Option.toList_none, List.append_nil,
      List.mem_singleton] at hw
    obtain ⟨seq, -, hw⟩ := hw
    exact ⟨seq, _, hw⟩
  generalize (seqs.flatMap fun seq => markLogDone seq "empty".toList none none).drop p.writes = ws at hmem ⊢
  split
  · obtain ⟨_, _, h⟩ := hmem _ List.mem_cons_self
    simp at h
  · obtain ⟨_, _, h⟩ := hmem _ List.mem_cons_self
    simp at h
  · trivial

end CloseLogs

/-! ### Objects of the repository -/

/-- An object that is written under the name of a pack or an index is that pack or index. -/
def KeepsPacks (packs : Str → Option PackedCommit) (w : Str × Bytes) : Prop :=
  ∀ oid c, packs oid = some c →
    (w.1 = GcsGitStorage.packObjectName c.packSha ".pack".toList → w.2 = c.packData) ∧
    (w.1 = GcsGitStorage.packObjectName c.packSha ".idx".toList → w.2 = c.idxData)

theorem lookup_repoWrite (d : Durable) (name : Str) (data : Bytes) (n : Str) :
    (d.write (.repo name data)).repo.objects.lookup n =
      if n = name then some data else d.repo.objects.lookup n := by
  split_ifs with h
  · subst h
    exact AList.lookup_insert _
  · exact AList.lookup_insert_ne h

theorem published_repoWrite {packs : Str → Option PackedCommit} {d : Durable} {w : Str × Bytes} {oid : Str}
    {c : PackedCommit} (hw : KeepsPacks packs w) (hc : packs oid = some c) (h : Published d c) :
    Published (d.write (.repo w.1 w.2)) c := by
  obtain ⟨hpack, hidx⟩ := h
  constructor
  · rw [lookup_repoWrite]
    split_ifs with hname
    · rw [(hw oid c hc).1 hname.symm]
    · exact hpack
  · rw [lookup_repoWrite]
    split_ifs with hname
    · rw [(hw oid c hc).2 hname.symm]
    · exact hidx

theorem published_repoWrites {packs : Str → Option PackedCommit} (ws : List (Str × Bytes))
    (hws : ∀ w ∈ ws, KeepsPacks packs w) {d : Durable} (oid : Str) {c : PackedCommit}
    (hc : packs oid = some c) (h : Published d c) :
    Published (d.writes (ws.map fun w => .repo w.1 w.2)) c := by
  induction ws generalizing d with
  | nil => exact h
  | cons w ws ih =>
    exact ih (fun x hx => hws x (List.mem_cons_of_mem _ hx))
      (published_repoWrite (hws w List.mem_cons_self) hc h)

theorem repoWrites_wal (ws : List (Str × Bytes)) (d : Durable) :
    (d.writes (ws.map fun w => .repo w.1 w.2)).wal = d.wal := by
  induction ws generalizing d with
  | nil => rfl
  | cons w ws ih => exact ih _

theorem repoWrites_backed {packs : Str → Option PackedCommit} {gcs : Bool} (ws : List (Str × Bytes))
    (hws : ∀ w ∈ ws, KeepsPacks packs w) (d : Durable) (hd : Backed packs gcs d) :
    Backed packs gcs (d.writes (ws.map fun w => .repo w.1 w.2)) := by
  intro seq oid hoid hdone
  rw [repoWrites_wal] at hdone
  obtain ⟨c, hc, hstored | ⟨hgcs, hpub⟩⟩ := hd seq oid hoid hdone
  · exact ⟨c, hc, .inl (by rwa [Stored, repoWrites_wal])⟩
  · exact ⟨c, hc, .inr ⟨hgcs, published_repoWrites ws hws _ hc hpub⟩⟩

/-- A crash while the repository is written leaves whole objects. -/
theorem repoCrash_eq (ws : List (Str × Bytes)) (vs : List DurableWrite) (d : Durable) (p : CrashPoint)
    (hp : p.writes < ws.length) :
    d.crash (ws.map (fun w => DurableWrite.repo w.1 w.2) ++ vs) p =
      d.writes ((ws.take p.writes).map fun w => .repo w.1 w.2) := by
  have htake : (ws.map (fun w => DurableWrite.repo w.1 w.2) ++ vs).take p.writes =
      (ws.take p.writes).map fun w => .repo w.1 w.2 := by
    rw [List.take_append_of_le_length (by simpa using hp.le), List.map_take]
  have hnext : (ws.map (fun w => DurableWrite.repo w.1 w.2) ++ vs)[p.writes]? =
      some (.repo (ws[p.writes]).1 (ws[p.writes]).2) := by
    rw [List.getElem?_append_left (by simpa using hp), List.getElem?_map, List.getElem?_eq_getElem hp]
    rfl
  simp only [Durable.crash, htake, hnext]
  cases p.torn <;> rfl

theorem repoCrash_backed {packs : Str → Option PackedCommit} {gcs : Bool} (ws : List (Str × Bytes))
    (vs : List DurableWrite) (hws : ∀ w ∈ ws, KeepsPacks packs w) (d : Durable) (p : CrashPoint)
    (hp : p.writes < ws.length) (hd : Backed packs gcs d) :
    Backed packs gcs (d.crash (ws.map (fun w => DurableWrite.repo w.1 w.2) ++ vs) p) := by
  rw [repoCrash_eq ws vs d p hp]
  exact repoWrites_backed _ (fun w hw => hws w (List.mem_of_mem_take hw)) d hd

theorem packObjectName_inj {a b suffix : Str}
    (h : GcsGitStorage.packObjectName a suffix = GcsGitStorage.packObjectName b suffix) : a = b :=
  List.append_cancel_left (List.append_cancel_right h)

/-- No other object of a commit has a name under `objects/pack/`. -/
theorem keepsPacks_of_char {packs : Str → Option PackedCommit} {w : Str × Bytes} (x : Option Char)
    (hw : w.1[8]? = x) (hx : x ≠ some 'p') : KeepsPacks packs w := by
  have h : w.1[8]? ≠ some 'p' := hw ▸ hx
  have hchar : ∀ packSha suffix, (GcsGitStorage.packObjectName packSha suffix)[8]? = some 'p' :=
    fun _ _ => rfl
  intro oid c _
  exact ⟨fun heq => absurd (heq ▸ hchar _ _) h, fun heq => absurd (heq ▸ hchar _ _) h⟩

/-- The names of packs tell the packs apart from the one that is being published. -/
def PackNamed (packs : Str → Option PackedCommit) (c : PackedCommit) : Prop :=
  ∀ oid c', packs oid = some c' → c'.packSha = c.packSha →
    c'.packData = c.packData ∧ c'.idxData = c.idxData

theorem completedCommitWrites_keepPacks {packs : Str → Option PackedCommit} {c : PackedCommit}
    (hnames : PackNamed packs c) (s : GcsGitStorage) (branch : Option Str) (w : Str × Bytes)
    (hw : w ∈ s.completedCommitWrites c.commitOid c.packSha c.packData c.idxData branch) :
    KeepsPacks packs w := by
  simp only [GcsGitStorage.completedCommitWrites, GcsGitStorage.commitWrites,
    GcsGitStorage.serverInfoWrites, List.mem_append, List.mem_cons, List.not_mem_nil, or_false] at hw
  rcases hw with (rfl | rfl | rfl | rfl) | (rfl | rfl)
  · intro oid c' hc'
    refine ⟨fun h => ((hnames oid c' hc' (packObjectName_inj h).symm).1).symm, fun h => ?_⟩
    exact absurd h (packObjectName_pack_ne_idx _ _)
  · intro oid c' hc'
    refine ⟨fun h => absurd h.symm (packObjectName_pack_ne_idx _ _), fun h => ?_⟩
    exact ((hnames oid c' hc' (packObjectName_inj h).symm).2).symm
  · exact keepsPacks_of_char none rfl (by decide)
  · exact keepsPacks_of_char (some 'd') rfl (by decide)
  · exact keepsPacks_of_char (some 's') rfl (by decide)
  · exact keepsPacks_of_char (some 'i') rfl (by decide)

/-- Once all its objects are written a commit is published. -/
theorem published_of_writes (d : Durable) (c : PackedCommit) (branch : Option Str) :
    Published (d.writes ((d.repo.completedCommitWrites c.commitOid c.packSha c.packData c.idxData branch).map
      fun w => .repo w.1 w.2)) c := by
  have hnamed : PackNamed (fun _ => some c) c := fun _ _ h _ => by cases h; exact ⟨rfl, rfl⟩
  have hkeep := completedCommitWrites_keepPacks hnamed d.repo branch
  have htwo : ∀ rest : List (Str × Bytes),
      d.repo.completedCommitWrites c.commitOid c.packSha c.packData c.idxData branch =
        (GcsGitStorage.packObjectName c.packSha ".pack".toList, c.packData) ::
        (GcsGitStorage.packObjectName c.packSha ".idx".toList, c.idxData) :: rest →
      Published (d.writes ((d.repo.completedCommitWrites c.commitOid c.packSha c.packData c.idxData
        branch).map fun w => .repo w.1 w.2)) c := by
    intro rest hrest
    rw [hrest] at hkeep ⊢
    refine published_repoWrites rest (fun w hw => hkeep w (by simp [hw])) [] rfl
      (d := (d.write (.repo _ _)).write (.repo _ _)) ⟨?_, ?_⟩
    · rw [lookup_repoWrite, if_neg (packObjectName_pack_ne_idx _ _), lookup_repoWrite, if_pos rfl]
    · rw [lookup_repoWrite, if_pos rfl]
  exact htwo _ rfl

/-- A pack ends in its SHA, and so does an index. -/
theorem pack_and_idx_ne_nil {zlib : Bytes → Bytes} {objects : List GitObjectToPack} {packData idxData : Bytes}
    {packSha : Str} (h : createPackAndIndexBytes zlib objects = .ok (packData, idxData, packSha)) :
    packData ≠ [] ∧ idxData ≠ [] := by
  have hsha (b : Bytes) : b ++ sha1 b ≠ [] := by
    intro h
    have := congrArg List.length h
    rw [List.length_append, sha1_length] at this
    simp at this
  obtain ⟨entries, sha, hdata, hidx, -⟩ := createPackAndIndexBytes_ok h
  constructor
  · unfold createPackData at hdata
    simp only at hdata
    split at hdata
    · simp at hdata
    · simp only [Except.ok.injEq, Prod.mk.injEq] at hdata
      rw [← hdata.1]
      exact hsha _
  · unfold createIdxV2Data at hidx
    simp only at hidx
    split_ifs at hidx
    simp only [Except.ok.injEq] at hidx
    rw [← hidx]
    exact hsha _

theorem lockoutZombies_backed {packs : Str → Option PackedCommit} {gcs : Bool} {d : Durable}
    {store : WalStore} (hsame : WalStore.SameLogs d.wal store) (hd : Backed packs gcs d) :
    Backed packs gcs { d with wal := store } := by
  intro seq oid hoid hdone
  obtain ⟨c, hc, h⟩ := hd seq oid hoid (by rw [← hsame.done]; exact hdone)
  refine ⟨c, hc, ?_⟩
  simpa only [Stored, Published, hsame.pack, hsame.idx] using h

/-- The pack of what a recovery builds. -/
def RecoveryPlan.packs (plan : RecoveryPlan) (commitOid : Str) : Option PackedCommit :=
  plan.built.bind fun res => if res.commitOid = commitOid then some res.packed else none

theorem RecoveryPlan.packs_built (plan : RecoveryPlan) (res : RecoveredPackResult)
    (h : plan.built = some res) : plan.packs res.commitOid = some res.packed ∧ PackNamed plan.packs res.packed := by
  refine ⟨by simp [packs, h], fun oid c hc _ => ?_⟩
  simp only [packs, h, Option.bind_some] at hc
  split_ifs at hc
  simp only [Option.some.injEq] at hc
  exact hc ▸ ⟨rfl, rfl⟩

def headerPlan : RecoveryPlan :=
  recoveryPlan zlibStored emptyEngine (headerLog (oidOf 'a')) headerConfig .none

theorem headerLog_backed (packs : Str → Option PackedCommit) (gcs : Bool) (base : Str) :
    Backed packs gcs (headerLog base) := by
  intro seq oid _ h
  simp [headerLog, WalStore.setLog, WalStore.empty] at h

theorem headerPlan_writes :
    ∃ store res, WalStore.SameLogs (headerLog (oidOf 'a')).wal store ∧
      headerPlan = ⟨{ headerLog (oidOf 'a') with wal := store }, some res, closeLog res.packed 0⟩ ∧
      IsOid res.commitOid := by
  have hseqs : uncommittedSeqs (headerLog (oidOf 'a')).wal .none = [0] := by decide +kernel
  have hsome : headerPlan.built.isSome = true := by decide +kernel
  obtain ⟨store, hsame, hplan | ⟨built, hbuild, hplan⟩⟩ :=
    recoveryPlan_cases zlibStored emptyEngine (headerLog (oidOf 'a')) headerConfig .none
  · rw [headerPlan, hplan] at hsome
    simp at hsome
  · rw [headerPlan, hplan] at hsome
    obtain ⟨res, rfl⟩ := Option.isSome_iff_exists.mp hsome
    obtain ⟨info, r, -, -, hrebuilt, -⟩ := buildRecovery_ok hbuild
    refine ⟨store, res, hsame, ?_, (rebuildGitObjects_commit hrebuilt).2.1⟩
    rw [headerPlan, hplan, hseqs]
    rfl

end GitNfs
